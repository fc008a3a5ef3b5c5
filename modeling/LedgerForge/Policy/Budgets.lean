import LedgerForge.Library.Sums
import LedgerForge.Policy.Admissions
import LedgerForge.Policy.Intersection

/-! # Budget accounting

What a budget has used is what was admitted against it less what its bindings gave back. Admissions and releases are
the only steps that touch usage, budgets or bindings.
-/

namespace LedgerForge.Policy

open List PolicyDatabase Counters PolicyBinding Function Decision Keyed Float64 Except Sums

theorem slash_split {a b x y : List Char} (hx : '/' ∉ x) (hy : '/' ∉ y) (h : a ++ '/' :: x = b ++ '/' :: y) : a = b ∧ x = y := by
  have hlast : ∀ l m : List Char, '/' ∉ m → (l ++ '/' :: m).reverse.takeWhile (· ≠ '/') = m.reverse := by
    intro l m hm
    have hall : ∀ c ∈ m.reverse, decide (c ≠ '/') = true := by
      intro c hc
      exact decide_eq_true fun he => hm (he ▸ mem_reverse.mp hc)
    rw [reverse_append,reverse_cons,append_assoc,takeWhile_append_of_pos hall]
    simp
  have hxy : x = y := reverse_injective (by rw [← hlast a x hx,← hlast b y hy,h])
  subst hxy
  exact ⟨append_cancel_right h,rfl⟩

variable {a : PolicyAdmission} {x : Float64} {id : String} {new : Row} {env : Environment} {legs : List PolicyLeg}

theorem slash_notMem_fixed0 {n : ℤ} (h : x.toInt? = some n) (hn : 0 ≤ n) : '/' ∉ x.fixed0.toList := by
  cases x with
  | nan => cases h
  | inf neg => cases h
  | finite d hd =>
    obtain ⟨m,hm,-⟩ := fixed0_of_toInt? h hn
    rw [hm]
    intro hmem
    have hrepr : toString m = String.ofList (Nat.toDigits 10 m) := Nat.repr_eq_ofList_toDigits
    rw [hrepr,String.toList_ofList] at hmem
    exact absurd (Decimal.toDigits_isDigit m _ hmem) (by decide)

theorem ruleKey_injective {c c' : String} {y : Float64} {m n : ℤ} (hx : x.toInt? = some m) (hy : y.toInt? = some n)
    (hm : 0 ≤ m) (hn : 0 ≤ n) (h : ruleKey c x = ruleKey c' y) : c = c' ∧ x = y := by
  have hlists := congrArg String.toList h
  simp only [ruleKey,String.toList_append,append_assoc] at hlists
  obtain ⟨hc,hfixed⟩ := slash_split (slash_notMem_fixed0 hx hm) (slash_notMem_fixed0 hy hn) hlists
  exact ⟨String.toList_injective hc,fixed0_injective hx hy hm hn (String.toList_injective hfixed)⟩

def AdmissionBudget.Covers (x : AdmissionBudget) (b : PolicyBinding) : Prop :=
  b.admissionID = x.admissionID ∧ b.currency = x.key.currency ∧ b.precision = x.key.precision
deriving Decidable

namespace PolicyDatabase

variable (db : PolicyDatabase)

/-- What was admitted against a budget. -/
def admittedTo (k : BudgetKey) : ℤ := (db.budgets.map fun x => if x.key = k then x.amount else 0).sum

def releasedFrom (k : BudgetKey) : ℤ :=
  (db.budgets.map fun x => if x.key = k then (db.bindings.map fun b => if x.Covers b then b.released else 0).sum else 0).sum

end PolicyDatabase

structure Accounted (db : PolicyDatabase) : Prop where
  usage : ∀ k, value db.usage k = db.admittedTo k-db.releasedFrom k
  amounts : ∀ x ∈ db.budgets, x.amount = (db.bindings.map fun b => if x.Covers b then b.amount else 0).sum
  rows : ∀ x ∈ db.budgets, Counters.Has db.usage x.key
  known : ∀ x ∈ db.budgets, x.admissionID ∈ db.admissions.map PolicyAdmission.id
  bound : ∀ b ∈ db.bindings, b.admissionID ∈ db.admissions.map PolicyAdmission.id
  released : ∀ b ∈ db.bindings, 0 ≤ b.released ∧ b.released ≤ b.amount
  references : (db.bindings.map reference).Nodup
  ids : (db.bindings.map transactionID).Nodup
  admitted : (db.admissions.map PolicyAdmission.id).Nodup
  policies : ∀ s ∈ db.policies, RulesValid s.document.rules

variable {db db' : PolicyDatabase}

theorem Accounted.transport (h : Accounted db) (husage : db'.usage = db.usage) (hbudgets : db'.budgets = db.budgets)
    (hbindings : db'.bindings = db.bindings)
    (hids : db'.admissions.map PolicyAdmission.id = db.admissions.map PolicyAdmission.id)
    (hpolicies : ∀ s ∈ db'.policies, RulesValid s.document.rules) : Accounted db' where
  usage k := by
    rw [husage,admittedTo,releasedFrom,hbudgets,hbindings]
    exact h.usage k
  amounts := by rw [hbudgets,hbindings]; exact h.amounts
  rows := by rw [hbudgets,husage]; exact h.rows
  known := by rw [hbudgets,hids]; exact h.known
  bound := by rw [hbindings,hids]; exact h.bound
  released := by rw [hbindings]; exact h.released
  references := by rw [hbindings]; exact h.references
  ids := by rw [hbindings]; exact h.ids
  admitted := by rw [hids]; exact h.admitted
  policies := hpolicies

theorem Accounted.nonneg (h : Accounted db) (k : BudgetKey) : 0 ≤ value db.usage k := by
  rw [h.usage,sub_nonneg]
  refine sum_le_sum fun x hx => ?_
  split
  · rw [h.amounts x hx]
    refine sum_le_sum fun b hb => ?_
    split
    · exact (h.released b hb).2
    · exact le_refl _
  · exact le_refl _

variable {usage usage' : List (BudgetKey × ℤ)}

theorem releaseBudget_ok {delta : ℤ} {x : AdmissionBudget}
    (hrow : Counters.Has usage x.key) (h : releaseBudget delta usage x = .ok usage') :
    (∀ k, Counters.Has usage k → Counters.Has usage' k) ∧
    ∀ k, value usage' k = value usage k+if x.key = k then -delta else 0 := by
  unfold releaseBudget at h
  rw [if_neg (by rw [Option.isNone_iff_eq_none]; exact Option.isSome_iff_ne_none.mp hrow)] at h
  obtain ⟨-,h⟩ := ok_of_guard h
  cases h
  refine ⟨fun k hk => has_set hk,fun k => ?_⟩
  rw [value_set hrow]
  by_cases hk : k = x.key
  · rw [if_pos hk,if_pos hk.symm,hk]
    ring
  · rw [if_neg hk,if_neg (Ne.symm hk),add_zero]

variable {b : PolicyBinding}

/-- Giving back the capacity of a binding reduces exactly the budgets that cover it. -/
theorem releasePolicyBudgets_ok (hdb : Accounted db) {delta : ℤ}
    (h : db.releasePolicyBudgets b.admissionID b.currency b.precision delta = .ok db') :
    ∃ usage, db' = { db with usage := usage } ∧ (∀ x ∈ db.budgets, Counters.Has usage x.key) ∧
      ∀ k, value usage k = value db.usage k-
        (db.budgets.map fun x => if x.key = k then if x.Covers b then delta else 0 else 0).sum := by
  obtain ⟨usage,hfold,h⟩ := bind_ok h
  cases h
  set matching := db.budgets.filter fun x => x.admissionID = b.admissionID ∧ x.key.currency = b.currency ∧
    x.key.precision = b.precision
  have hmem : ∀ x ∈ matching.insertionSort (fun x y => x.key.apiKeyID ≤ y.key.apiKeyID), x ∈ db.budgets := fun x hx =>
    mem_of_mem_filter ((mem_insertionSort _).mp hx)
  obtain ⟨hrows,hvalue⟩ := value_foldlM (P := fun rows => ∀ x ∈ db.budgets, Counters.Has rows x.key)
    (fun rows rows' x hx hrows hok => by
      obtain ⟨hkept,hx⟩ := releaseBudget_ok (hrows x (hmem x hx)) hok
      exact ⟨fun y hy => hkept _ (hrows y hy),hx⟩) hdb.rows hfold
  refine ⟨usage,rfl,hrows,fun k => ?_⟩
  rw [hvalue,((perm_insertionSort _ matching).map _).sum_eq,sum_filter,sub_eq_add_neg,sum_neg,map_map]
  refine congrArg (_ + List.sum ·) (map_congr_left fun x _ => ?_)
  have hcovers : (x.admissionID = b.admissionID ∧ x.key.currency = b.currency ∧ x.key.precision = b.precision) ↔ x.Covers b := by
    unfold AdmissionBudget.Covers
    tauto
  simp only [comp_apply,if_congr hcovers rfl rfl]
  split_ifs <;> simp

theorem releasedFrom_setReleased (hrefs : (db.bindings.map reference).Nodup)
    (hb : b ∈ db.bindings) (unused : ℤ) (k : BudgetKey) :
    (db.setReleased b.reference unused).releasedFrom k = db.releasedFrom k+
      (db.budgets.map fun x => if x.key = k then if x.Covers b then unused-b.released else 0 else 0).sum := by
  unfold releasedFrom setReleased
  rw [← sum_map_add]
  refine congrArg List.sum (map_congr_left fun x _ => ?_)
  have hsum := sum_map_update hrefs hb (fun y => { y with released := unused }) fun y => if x.Covers y then y.released else 0
  have hsame : x.Covers { b with released := unused } ↔ x.Covers b := Iff.rfl
  rw [if_congr hsame rfl rfl] at hsum
  simp only [hsum]
  split_ifs <;> ring

/-- What releasing a binding up to an amount leaves unchanged, and what it sets. -/
structure ReleasedUpTo (db db' : PolicyDatabase) (b : PolicyBinding) (unused : ℤ) : Prop where
  ledger : db'.ledger = db.ledger
  keys : db'.keys = db.keys
  policies : db'.policies = db.policies
  admissions : db'.admissions = db.admissions
  budgets : db'.budgets = db.budgets
  bindings : db'.bindings = db.bindings.map fun x => if x.reference = b.reference then { x with released := unused } else x

theorem map_setReleased (reference : String) (unused : ℤ) {β : Type} (f : PolicyBinding → β)
    (hf : ∀ b, f { b with released := unused } = f b) :
    (db.setReleased reference unused).bindings.map f = db.bindings.map f := by
  unfold setReleased
  rw [map_map]
  refine map_congr_left fun b _ => ?_
  simp only [comp_apply]
  split
  · exact hf b
  · rfl

theorem Accounted.releaseUpTo (hdb : Accounted db) (hb : b ∈ db.bindings) {unused : ℤ}
    (hlow : b.released ≤ unused) (hhigh : unused ≤ b.amount) (h : db.releaseUpTo b unused = .ok db') :
    Accounted db' ∧ ReleasedUpTo db db' b unused := by
  obtain ⟨mid,hmid,h⟩ := bind_ok h
  cases h
  obtain ⟨usage,rfl,hrows,hvalue⟩ := releasePolicyBudgets_ok hdb hmid
  refine ⟨⟨fun k => ?_,fun x hx => ?_,hrows,hdb.known,fun x hx => ?_,fun x hx => ?_,?_,?_,hdb.admitted,hdb.policies⟩,
    ⟨rfl,rfl,rfl,rfl,rfl,rfl⟩⟩
  · have hreleased := releasedFrom_setReleased hdb.references hb unused k
    change value usage k = db.admittedTo k-(db.setReleased b.reference unused).releasedFrom k
    rw [hvalue,hdb.usage k,hreleased]
    ring
  · rw [hdb.amounts x hx]
    exact congrArg List.sum (map_setReleased b.reference unused _ fun _ => rfl).symm
  · obtain ⟨y,hy,rfl⟩ := mem_map.mp hx
    split
    all_goals exact hdb.bound y hy
  · obtain ⟨y,hy,rfl⟩ := mem_map.mp hx
    split
    · rename_i href
      obtain rfl : y = b := inj_on_of_nodup_map hdb.references hy hb href
      exact ⟨(hdb.released y hy).1.trans hlow,hhigh⟩
    · exact hdb.released y hy
  · exact (map_setReleased b.reference unused reference fun _ => rfl).symm ▸ hdb.references
  · exact (map_setReleased b.reference unused transactionID fun _ => rfl).symm ▸ hdb.ids

/-- What may become of a decision: one that was made stays, and a pending one is never waived. -/
def Decision.Follows (d e : Decision) : Prop := (d ≠ .pending → e = d) ∧ (d = .pending → e ≠ .notRequired)

theorem Decision.Follows.refl (d : Decision) : Follows d d := by
  refine ⟨fun _ => rfl,fun h => ?_⟩
  rw [h]
  exact nofun

theorem Decision.Follows.trans {d e f : Decision} (h : Follows d e) (h' : Follows e f) : Follows d f := by
  constructor
  · intro hd
    have he := h.1 hd
    rw [h'.1 (he ▸ hd),he]
  · intro hd
    by_cases he : e = .pending
    · exact h'.2 he
    · rw [h'.1 he]
      exact h.2 hd

/-- Along a run bindings keep their terms and only release more, and decisions that were made stay. -/
structure Advances (db db' : PolicyDatabase) : Prop where
  bindings : ∀ b ∈ db.bindings, ∃ x ∈ db'.bindings, x = { b with released := x.released } ∧ b.released ≤ x.released
  admissions : ∀ a ∈ db.admissions, ∃ x ∈ db'.admissions, x.id = a.id ∧ Follows a.decision x.decision

theorem Advances.refl (db : PolicyDatabase) : Advances db db :=
  ⟨fun b hb => ⟨b,hb,rfl,le_refl _⟩,fun a ha => ⟨a,ha,rfl,.refl _⟩⟩

theorem Advances.trans {db₁ db₂ db₃ : PolicyDatabase} (h : Advances db₁ db₂) (h' : Advances db₂ db₃) : Advances db₁ db₃ := by
  refine ⟨fun b hb => ?_,fun a ha => ?_⟩
  · obtain ⟨x,hx,hterms,hle⟩ := h.bindings b hb
    obtain ⟨y,hy,hterms',hle'⟩ := h'.bindings x hx
    refine ⟨y,hy,?_,hle.trans hle'⟩
    rw [hterms',hterms]
  · obtain ⟨x,hx,hid,hkept⟩ := h.admissions a ha
    obtain ⟨y,hy,hid',hkept'⟩ := h'.admissions x hx
    exact ⟨y,hy,hid'.trans hid,hkept.trans hkept'⟩

theorem Advances.of_eq (hbindings : db'.bindings = db.bindings) (hadmissions : db'.admissions = db.admissions) :
    Advances db db' :=
  ⟨fun b hb => ⟨b,hbindings ▸ hb,rfl,le_refl _⟩,fun a ha => ⟨a,hadmissions ▸ ha,rfl,.refl _⟩⟩

theorem ReleasedUpTo.advances {unused : ℤ} (h : ReleasedUpTo db db' b unused)
    (hrefs : (db.bindings.map reference).Nodup) (hb : b ∈ db.bindings) (hle : b.released ≤ unused) :
    Advances db db' := by
  refine ⟨fun x hx => ⟨_,h.bindings ▸ mem_map_of_mem hx,?_,?_⟩,fun a ha => ⟨a,h.admissions ▸ ha,rfl,.refl _⟩⟩
  · split <;> rfl
  · split
    · rename_i href
      obtain rfl : x = b := inj_on_of_nodup_map hrefs hx hb href
      exact hle
    · exact le_refl _

theorem rejectExhausted_ids (admissionID : String) :
    (db.rejectExhausted admissionID).admissions.map PolicyAdmission.id = db.admissions.map PolicyAdmission.id := by
  unfold rejectExhausted
  rw [map_map]
  refine map_congr_left fun a _ => ?_
  simp only [comp_apply]
  split <;> rfl

theorem advances_rejectExhausted (admissionID : String) : Advances db (db.rejectExhausted admissionID) := by
  refine ⟨fun b hb => ⟨b,hb,rfl,le_refl _⟩,fun a ha => ⟨_,mem_map_of_mem ha,?_,?_⟩⟩
  · split <;> rfl
  · split
    · rename_i hpending
      exact ⟨fun hne => absurd hpending.2.1 hne,fun _ => nofun⟩
    · exact .refl _

theorem Accounted.rejectExhausted (h : Accounted db) (admissionID : String) : Accounted (db.rejectExhausted admissionID) :=
  h.transport rfl rfl rfl (rejectExhausted_ids admissionID) h.policies

theorem policyReleasableCapacity_le (b : PolicyBinding) : db.policyReleasableCapacity b ≤ b.amount := by
  unfold policyReleasableCapacity
  simp only
  split
  · exact le_refl _
  · exact min_le_left _ _

theorem bindingByID_mem (h : db.bindingByID id = some b) : b ∈ db.bindings := by
  obtain ⟨x,-,hx⟩ := List.exists_of_findSome?_eq_some h
  exact find_mem hx

theorem Accounted.releaseExcess (hdb : Accounted db) (hb : b ∈ db.bindings)
    (h : db.releaseExcess b = .ok db') : Accounted db' ∧ Advances db db' := by
  unfold PolicyDatabase.releaseExcess at h
  split at h
  · have hle : b.released ≤ db.policyReleasableCapacity b := by omega
    obtain ⟨haccounted,hreleased⟩ := hdb.releaseUpTo hb hle (policyReleasableCapacity_le b) h
    exact ⟨haccounted,hreleased.advances hdb.references hb hle⟩
  · cases h
    exact ⟨hdb,.refl _⟩

theorem Accounted.releaseTerminal (hdb : Accounted db)
    (h : db.releaseTerminalPolicyReservation new = .ok db') : Accounted db' ∧ Advances db db' := by
  unfold releaseTerminalPolicyReservation at h
  split at h
  · cases h
    exact ⟨hdb,.refl _⟩
  split at h
  · cases h
    exact ⟨hdb,.refl _⟩
  rename_i b hb
  obtain ⟨mid,hmid,h⟩ := bind_ok h
  cases h
  obtain ⟨haccounted,hadvances⟩ := hdb.releaseExcess (bindingByID_mem hb) hmid
  exact ⟨haccounted.rejectExhausted _,hadvances.trans (advances_rejectExhausted _)⟩

theorem Accounted.releasePolicyLeg (hdb : Accounted db) (h : db.releasePolicyLeg id = .ok db') :
    Accounted db' ∧ Advances db db' := by
  unfold PolicyDatabase.releasePolicyLeg at h
  split at h
  · cases h
    exact ⟨hdb,.refl _⟩
  rename_i b hb
  split_ifs at h
  · cases h
    exact ⟨hdb,.refl _⟩
  obtain ⟨mid,hmid,h⟩ := bind_ok h
  cases h
  obtain ⟨haccounted,hadvances⟩ := hdb.releaseExcess (bindingByID_mem hb) hmid
  exact ⟨haccounted.rejectExhausted _,hadvances.trans (advances_rejectExhausted _)⟩

theorem Accounted.insertTransaction (hdb : Accounted db)
    (h : db.insertTransaction env new = .ok db') : Accounted db' ∧ Advances db db' := by
  obtain ⟨_,-,h⟩ := bind_ok h
  obtain ⟨ledger,-,h⟩ := bind_ok h
  have hledger : Accounted { db with ledger := ledger } := hdb.transport rfl rfl rfl rfl hdb.policies
  obtain ⟨haccounted,hadvances⟩ := hledger.releaseTerminal h
  have hkept : Advances db { db with ledger := ledger } := .of_eq rfl rfl
  exact ⟨haccounted,hkept.trans hadvances⟩

theorem insertBudgets_ok (id : String) {l : List AdmissionBudget} (hl : ∀ x ∈ l, x.admissionID = id)
    (h : l.foldlM insertBudget db = .ok db') :
    db' = { db with budgets := db.budgets ++ l } ∧ (l.map AdmissionBudget.key).Nodup ∧
      ∀ x ∈ l, ∀ y ∈ db.budgets, y.admissionID = id → y.key ≠ x.key := by
  induction l generalizing db with
  | nil =>
    cases h
    exact ⟨by simp,nodup_nil,nofun⟩
  | cons x l ih =>
    obtain ⟨mid,hmid,h⟩ := bind_ok h
    obtain ⟨hfresh,hmid⟩ := ok_of_guard hmid
    cases hmid
    have hx : x.admissionID = id := hl x mem_cons_self
    have hnew : ∀ y ∈ db.budgets, y.admissionID = id → y.key ≠ x.key := by
      intro y hy hid hkey
      have := any_eq_false.mp (Bool.not_eq_true _ ▸ hfresh) y hy
      simp [hid,hx,hkey] at this
    obtain ⟨rfl,hnodup,hapart⟩ := ih (fun y hy => hl y (mem_cons_of_mem _ hy)) h
    refine ⟨by simp,?_,?_⟩
    · rw [map_cons,nodup_cons]
      refine ⟨fun hmem => ?_,hnodup⟩
      obtain ⟨y,hy,hkey⟩ := mem_map.mp hmem
      exact hapart y hy x (mem_append_right _ (mem_singleton_self x)) hx hkey.symm
    · intro y hy z hz
      rcases mem_cons.mp hy with rfl | hy
      · exact hnew z hz
      · exact hapart y hy z (mem_append_left _ hz)

theorem insertBindings_ok {l : List PolicyBinding} (h : l.foldlM insertBinding db = .ok db')
    (hrefs : (db.bindings.map reference).Nodup) (hids : (db.bindings.map transactionID).Nodup) :
    db' = { db with bindings := db.bindings ++ l } ∧ (db'.bindings.map reference).Nodup ∧
      (db'.bindings.map transactionID).Nodup := by
  induction l generalizing db with
  | nil =>
    cases h
    exact ⟨by simp,hrefs,hids⟩
  | cons x l ih =>
    obtain ⟨mid,hmid,h⟩ := bind_ok h
    obtain ⟨hfresh,hmid⟩ := ok_of_guard hmid
    cases hmid
    have hnew : ∀ y ∈ db.bindings, y.reference ≠ x.reference ∧ y.transactionID ≠ x.transactionID := by
      intro y hy
      have := any_eq_false.mp (Bool.not_eq_true _ ▸ hfresh) y hy
      simpa only [Bool.or_eq_true,decide_eq_true_eq,not_or] using this
    obtain ⟨rfl,hrefs',hids'⟩ := ih h (nodup_concat hrefs fun y hy => (hnew y hy).1) (nodup_concat hids fun y hy => (hnew y hy).2)
    exact ⟨by simp,hrefs',hids'⟩

def chargedBudget (day : ℤ) (c : KeyPolicy × String) : BudgetKey := c.1.budget (c.1.ruleFor c.2) day

theorem le_of_not_exceeds {limit : String} {n : ℕ} {amount : ℤ} (hn : integer limit = some n) (h : exceeds limit amount = false) :
    amount ≤ n := by
  have hne : limit ≠ "" := by
    rintro rfl
    cases hn
  unfold exceeds at h
  rw [hn,decide_eq_true hne] at h
  exact not_lt.mp (of_decide_eq_false h)

theorem charge_ok {day : ℤ} {c : KeyPolicy × String}
    (h : charge legs day usage c = .ok usage') :
    (∀ k, Counters.Has usage k → Counters.Has usage' k) ∧ Counters.Has usage' (chargedBudget day c) ∧
    (∀ k, value usage' k = value usage k+if chargedBudget day c = k then total legs c.2 else 0) ∧
    exceeds (c.1.ruleFor c.2).dailyLimit (value usage' (chargedBudget day c)) = false := by
  obtain ⟨hlimit,h⟩ := ok_of_guard h
  cases h
  rw [← chargedBudget] at hlimit ⊢
  have hrow := has_ensure_self usage (chargedBudget day c)
  refine ⟨fun k hk => has_set (has_ensure hk),has_set hrow,fun k => ?_,?_⟩
  · rw [value_set hrow,value_ensure]
    by_cases hk : k = chargedBudget day c
    · rw [if_pos hk,if_pos hk.symm,hk]
    · rw [if_neg hk,if_neg (Ne.symm hk),add_zero]
  · rw [value_set hrow,if_pos rfl]
    exact Bool.not_eq_true _ ▸ hlimit

/-- All charges together: every budget grows by what is charged to it, and ends within its limit. -/
theorem charges_ok {day : ℤ} {l : List (KeyPolicy × String)}
    (hn : (l.map (chargedBudget day)).Nodup) (h : l.foldlM (charge legs day) usage = .ok usage') :
    (∀ k, Counters.Has usage k → Counters.Has usage' k) ∧ (∀ c ∈ l, Counters.Has usage' (chargedBudget day c)) ∧
    (∀ k, value usage' k = value usage k+
      (l.map fun c => if chargedBudget day c = k then total legs c.2 else 0).sum) ∧
    ∀ c ∈ l, exceeds (c.1.ruleFor c.2).dailyLimit (value usage' (chargedBudget day c)) = false := by
  induction l generalizing usage with
  | nil =>
    cases h
    exact ⟨fun _ hk => hk,nofun,fun k => by simp,nofun⟩
  | cons c l ih =>
    obtain ⟨mid,hmid,hrest⟩ := bind_ok h
    rw [map_cons,nodup_cons] at hn
    obtain ⟨hkept,hrow,hvalue,hlimit⟩ := charge_ok hmid
    obtain ⟨hkept',hrows,hvalues,hlimits⟩ := ih hn.2 hrest
    refine ⟨fun k hk => hkept' k (hkept k hk),?_,fun k => ?_,?_⟩
    · exact forall_mem_cons.mpr ⟨hkept' _ hrow,hrows⟩
    · rw [hvalues,hvalue,map_cons,sum_cons,add_assoc]
    · refine forall_mem_cons.mpr ⟨?_,hlimits⟩
      -- the later charges go to other budgets
      have hnone : (l.map fun x => if chargedBudget day x = chargedBudget day c then total legs x.2 else 0).sum = 0 :=
        sum_none (fun x => chargedBudget day x = chargedBudget day c) (fun x hx he => hn.1 (he ▸ mem_map_of_mem hx)) _
      rw [hvalues,hnone,add_zero]
      exact hlimit

variable {p : KeyPolicy} {key : String}

theorem ruleFor_spec (h : ∃ r ∈ p.rules, r.key = key) :
    p.ruleFor key ∈ p.rules ∧ (p.ruleFor key).key = key := by
  obtain ⟨r,hr,hkey⟩ := h
  unfold KeyPolicy.ruleFor
  cases hfind : p.rules.find? fun r => r.key = key with
  | none => exact absurd (decide_eq_true hkey) (by simpa using List.find?_eq_none.mp hfind r hr)
  | some x => exact ⟨List.mem_of_find?_eq_some hfind,by simpa using List.find?_some hfind⟩

theorem checkLeg_ok {leg : PolicyLeg} (h : checkLeg p leg = .ok ()) : ∃ r ∈ p.rules, r.key = leg.key := by
  unfold checkLeg at h
  split_ifs at h with hamount hrule hlists
  simpa using hrule

theorem mem_legKeys : key ∈ legKeys legs ↔ ∃ leg ∈ legs, leg.key = key := by
  rw [legKeys,mem_insertionSort,mem_dedup,mem_map]

variable {policies : List KeyPolicy}

theorem mem_charges {c : KeyPolicy × String} :
    c ∈ charges policies legs ↔ c.1 ∈ policies ∧ c.2 ∈ legKeys legs := by
  unfold charges
  simp only [mem_flatMap,mem_insertionSort,mem_map]
  constructor
  · rintro ⟨p,hp,key,hkey,rfl⟩
    exact ⟨hp,hkey⟩
  · rintro ⟨hp,hkey⟩
    exact ⟨c.1,hp,c.2,hkey,rfl⟩

theorem budget_eq {q : KeyPolicy} (hmeet : MeetOf policies p) (hq : q ∈ policies)
    (hvalid : RulesValid q.rules) (hkey : ∃ r ∈ p.rules, r.key = key) (day : ℤ) :
    (∃ r ∈ q.rules, r.key = key) ∧ q.budget (q.ruleFor key) day = q.budget (p.ruleFor key) day := by
  obtain ⟨hmem,hname⟩ := ruleFor_spec hkey
  have hcommon : ∃ r ∈ q.rules, r.key = key := hname ▸ hmeet.common _ hmem q hq
  obtain ⟨hmem',hname'⟩ := ruleFor_spec hcommon
  obtain ⟨m,hm,hm1⟩ := hvalid.integral _ hmem'
  obtain ⟨n,hn,hn1⟩ := hmeet.valid.integral _ hmem
  obtain ⟨hcurrency,hprecision⟩ := ruleKey_injective hm hn (by omega) (by omega) (hname'.trans hname.symm)
  refine ⟨hcommon,?_⟩
  unfold KeyPolicy.budget
  rw [hcurrency,hprecision]

theorem validatePrecision_ok (h : validatePrecision x = .ok ()) : ∃ n : ℤ, x.toInt? = some n ∧ 0 ≤ n := by
  obtain ⟨hvalid,h⟩ := ok_of_guard h
  cases x with
  | nan => exact absurd rfl hvalid
  | inf neg => exact absurd rfl hvalid
  | finite d hd =>
    simp only [Bool.or_eq_true,not_or,Bool.not_eq_true,Option.isNone_eq_false_iff,negative,decide_eq_false_iff_not,not_lt] at hvalid
    obtain ⟨⟨-,hcoef⟩,hint⟩ := hvalid
    obtain ⟨n,hn⟩ := Option.isSome_iff_exists.mp hint
    refine ⟨n,hn,?_⟩
    simp only [toInt?,Option.ite_none_right_eq_some,Option.some.injEq] at hn
    rw [← hn.2]
    exact Rat.num_nonneg.mpr (mul_nonneg (Int.cast_nonneg hcoef) (Decimal.tenPow_pos _).le)

theorem leg_of_rule (hvalid : RulesValid p.rules) (hkey : ∃ r ∈ p.rules, r.key = key) {leg : PolicyLeg}
    (hleg : validatePrecision leg.precision = .ok ()) :
    leg.key = key ↔ leg.currency = (p.ruleFor key).currency ∧ leg.precision = (p.ruleFor key).precision := by
  obtain ⟨hmem,hname⟩ := ruleFor_spec hkey
  obtain ⟨n,hn,hpos⟩ := hvalid.integral _ hmem
  obtain ⟨m,hm,hnonneg⟩ := validatePrecision_ok hleg
  constructor
  · intro h
    exact ruleKey_injective hm hn hnonneg (by omega) (h.trans hname.symm)
  · rintro ⟨hcurrency,hprecision⟩
    rw [← hname,PolicyLeg.key,hcurrency,hprecision]
    rfl

def recordedBudget (r : AdmissionRequest) (p : KeyPolicy) (c : KeyPolicy × String) : AdmissionBudget :=
  ⟨r.admissionID,c.1.budget (p.ruleFor c.2) r.day,total r.legs c.2⟩

/-- What an admission does. -/
structure Admitted (r : AdmissionRequest) (policies : List KeyPolicy) (p : KeyPolicy) (db db' : PolicyDatabase)
    (a : PolicyAdmission) : Prop where
  id : a.id = r.admissionID
  fresh : ∀ x ∈ db.admissions, x.id ≠ r.admissionID
  ledger : db'.ledger = db.ledger
  stored : db'.policies = db.policies
  admissions : db'.admissions = db.admissions ++ [a]
  budgets : db'.budgets = db.budgets ++ (charges policies r.legs).map (recordedBudget r p)
  bindings : db'.bindings = db.bindings ++ r.legs.map (PolicyLeg.binding r.admissionID)
  kept : ∀ k, Counters.Has db.usage k → Counters.Has db'.usage k
  charged : ∀ c ∈ charges policies r.legs, Counters.Has db'.usage (chargedBudget r.day c)
  usage : ∀ k, value db'.usage k = value db.usage k+
    ((charges policies r.legs).map fun c => if chargedBudget r.day c = k then total r.legs c.2 else 0).sum
  limits : ∀ c ∈ charges policies r.legs, exceeds (c.1.ruleFor c.2).dailyLimit (value db'.usage (chargedBudget r.day c)) = false
  references : (db'.bindings.map reference).Nodup
  ids : (db'.bindings.map transactionID).Nodup
  named : ∀ c ∈ charges policies r.legs, ∃ x ∈ p.rules, x.key = c.2
  same : ∀ c ∈ charges policies r.legs, chargedBudget r.day c = (recordedBudget r p c).key

theorem insertAdmission_ok (h : db.insertAdmission a = .ok db') :
    db' = { db with admissions := db.admissions ++ [a] } ∧ ∀ x ∈ db.admissions, x.id ≠ a.id := by
  obtain ⟨hfresh,h⟩ := ok_of_guard h
  cases h
  refine ⟨rfl,fun x hx hid => ?_⟩
  have := any_eq_false.mp (Bool.not_eq_true _ ▸ hfresh) x hx
  simp [hid] at this

variable {r : AdmissionRequest}

theorem admitLegs_ok (hdb : Accounted db) (hvalid : ∀ q ∈ policies, RulesValid q.rules) (hmeet : MeetOf policies p)
    (h : db.admitLegs env r policies p = .ok (db',a)) : Admitted r policies p db db' a := by
  obtain ⟨_,hlegs,h⟩ := bind_ok h
  rw [Results.checkAll_ok] at hlegs
  obtain ⟨-,h⟩ := ok_of_guard h
  obtain ⟨_,-,h⟩ := bind_ok h
  obtain ⟨usage,husage,h⟩ := bind_ok h
  obtain ⟨admitted,hadmitted,h⟩ := bind_ok h
  obtain ⟨budgeted,hbudgeted,h⟩ := bind_ok h
  obtain ⟨bound,hbound,h⟩ := bind_ok h
  cases h
  have hnamed : ∀ c ∈ charges policies r.legs, ∃ x ∈ p.rules, x.key = c.2 := by
    intro c hc
    obtain ⟨leg,hleg,hkey⟩ := mem_legKeys.mp (mem_charges.mp hc).2
    exact hkey ▸ checkLeg_ok (hlegs leg hleg)
  have hsame : ∀ c ∈ charges policies r.legs, chargedBudget r.day c = (recordedBudget r p c).key := by
    intro c hc
    have hq := (mem_charges.mp hc).1
    exact (budget_eq hmeet hq (hvalid c.1 hq) (hnamed c hc) r.day).2
  obtain ⟨rfl,hfresh⟩ := insertAdmission_ok hadmitted
  have hbudgets : ((charges policies r.legs).map (recordedBudget r p)).foldlM insertBudget _ = .ok budgeted :=
    foldlM_map.trans hbudgeted
  obtain ⟨rfl,hkeys,-⟩ := insertBudgets_ok r.admissionID (by
    intro x hx
    obtain ⟨c,-,rfl⟩ := mem_map.mp hx
    rfl) hbudgets
  obtain ⟨rfl,hrefs,hids⟩ := insertBindings_ok hbound hdb.references hdb.ids
  rw [map_map] at hkeys
  have hdistinct : ((charges policies r.legs).map (chargedBudget r.day)).Nodup := by
    rw [map_congr_left hsame]
    exact hkeys
  obtain ⟨hkept,hcharged,hvalue,hlimits⟩ := charges_ok hdistinct husage
  exact ⟨rfl,hfresh,rfl,rfl,rfl,rfl,rfl,hkept,hcharged,hvalue,hlimits,hrefs,hids,hnamed,hsame⟩

section

theorem sum_covers_none {x : AdmissionBudget} {l : List PolicyBinding} (h : ∀ b ∈ l, b.admissionID ≠ x.admissionID)
    (f : PolicyBinding → ℤ) : (l.map fun b => if x.Covers b then f b else 0).sum = 0 :=
  sum_none x.Covers (fun b hb hc => h b hb hc.1) f

theorem Admitted.covered_old (hdb : Accounted db) (h : Admitted r policies p db db' a) {x : AdmissionBudget} (hx : x ∈ db.budgets)
    (f : PolicyBinding → ℤ) : (db'.bindings.map fun b => if x.Covers b then f b else 0).sum =
      (db.bindings.map fun b => if x.Covers b then f b else 0).sum := by
  rw [h.bindings,map_append,sum_append]
  refine add_eq_left.mpr (sum_covers_none ?_ f)
  intro b hb hid
  obtain ⟨leg,-,rfl⟩ := mem_map.mp hb
  obtain ⟨y,hy,hyid⟩ := mem_map.mp (hdb.known x hx)
  exact h.fresh y hy (hyid.trans hid.symm)

theorem Admitted.covered_new (hdb : Accounted db) (hmeet : MeetOf policies p)
    (hlegs : ∀ leg ∈ r.legs, validatePrecision leg.precision = .ok ()) (h : Admitted r policies p db db' a)
    {c : KeyPolicy × String} (hc : c ∈ charges policies r.legs) (f : PolicyBinding → ℤ) :
    (db'.bindings.map fun b => if (recordedBudget r p c).Covers b then f b else 0).sum =
      (r.legs.map fun leg => if leg.key = c.2 then f (leg.binding r.admissionID) else 0).sum := by
  rw [h.bindings,map_append,sum_append,sum_covers_none _ f,zero_add,map_map]
  · refine congrArg List.sum (map_congr_left fun leg hleg => ?_)
    have hcovers : (recordedBudget r p c).Covers (leg.binding r.admissionID) ↔ leg.key = c.2 := by
      rw [leg_of_rule hmeet.valid (h.named c hc) (hlegs leg hleg)]
      exact and_iff_right rfl
    simp only [comp_apply,if_congr hcovers rfl rfl]
  · intro b hb hid
    obtain ⟨y,hy,hyid⟩ := mem_map.mp (hdb.bound b hb)
    exact h.fresh y hy (hyid.trans hid)

theorem Admitted.admittedTo (h : Admitted r policies p db db' a) (k : BudgetKey) :
    db'.admittedTo k = db.admittedTo k+
      ((charges policies r.legs).map fun c => if chargedBudget r.day c = k then total r.legs c.2 else 0).sum := by
  unfold PolicyDatabase.admittedTo
  rw [h.budgets,map_append,sum_append,map_map]
  congr 2
  refine map_congr_left fun c hc => ?_
  simp only [comp_apply,h.same c hc]
  rfl

theorem Admitted.releasedFrom (hdb : Accounted db) (hmeet : MeetOf policies p)
    (hlegs : ∀ leg ∈ r.legs, validatePrecision leg.precision = .ok ()) (h : Admitted r policies p db db' a) (k : BudgetKey) :
    db'.releasedFrom k = db.releasedFrom k := by
  unfold PolicyDatabase.releasedFrom
  rw [h.budgets,map_append,sum_append,map_map]
  have hnew : ((charges policies r.legs).map ((fun x => if x.key = k then
      (db'.bindings.map fun b => if x.Covers b then b.released else 0).sum else 0) ∘ recordedBudget r p)).sum = 0 := by
    refine sum_eq_zero fun v hv => ?_
    obtain ⟨c,hc,rfl⟩ := mem_map.mp hv
    simp only [comp_apply,h.covered_new hdb hmeet hlegs hc,PolicyLeg.binding,ite_self,map_const',
      sum_replicate,smul_zero]
  rw [hnew,add_zero]
  refine congrArg List.sum (map_congr_left fun x hx => ?_)
  rw [h.covered_old hdb hx]

theorem Accounted.admission (hdb : Accounted db) (hmeet : MeetOf policies p)
    (hlegs : ∀ leg ∈ r.legs, validatePrecision leg.precision = .ok ()) (h : Admitted r policies p db db' a) : Accounted db' where
  usage k := by
    rw [h.usage,hdb.usage,h.admittedTo,h.releasedFrom hdb hmeet hlegs]
    ring
  amounts := by
    rw [h.budgets]
    refine forall_mem_append.mpr ⟨fun x hx => ?_,fun x hx => ?_⟩
    · rw [h.covered_old hdb hx]
      exact hdb.amounts x hx
    · obtain ⟨c,hc,rfl⟩ := mem_map.mp hx
      rw [h.covered_new hdb hmeet hlegs hc,← sum_filter]
      rfl
  rows := by
    rw [h.budgets]
    refine forall_mem_append.mpr ⟨fun x hx => h.kept _ (hdb.rows x hx),fun x hx => ?_⟩
    obtain ⟨c,hc,rfl⟩ := mem_map.mp hx
    exact h.same c hc ▸ h.charged c hc
  known := by
    rw [h.budgets,h.admissions,map_append]
    refine forall_mem_append.mpr ⟨fun x hx => mem_append_left _ (hdb.known x hx),fun x hx => ?_⟩
    obtain ⟨c,-,rfl⟩ := mem_map.mp hx
    exact mem_append_right _ (mem_singleton.mpr h.id.symm)
  bound := by
    rw [h.bindings,h.admissions,map_append]
    refine forall_mem_append.mpr ⟨fun b hb => mem_append_left _ (hdb.bound b hb),fun b hb => ?_⟩
    obtain ⟨leg,-,rfl⟩ := mem_map.mp hb
    exact mem_append_right _ (mem_singleton.mpr h.id.symm)
  released := by
    rw [h.bindings]
    refine forall_mem_append.mpr ⟨hdb.released,fun b hb => ?_⟩
    obtain ⟨leg,-,rfl⟩ := mem_map.mp hb
    exact ⟨le_refl _,Int.natCast_nonneg _⟩
  references := h.references
  ids := h.ids
  admitted := h.admissions ▸ nodup_concat hdb.admitted fun x hx => h.id ▸ h.fresh x hx
  policies := h.stored ▸ hdb.policies

theorem Admitted.advances (h : Admitted r policies p db db' a) : Advances db db' :=
  ⟨fun b hb => ⟨b,h.bindings ▸ mem_append_left _ hb,rfl,le_refl _⟩,
    fun x hx => ⟨x,h.admissions ▸ mem_append_left _ hx,rfl,.refl _⟩⟩

end

theorem Accounted.ancestors_valid (hdb : Accounted db) {ids : List String} : ∀ q ∈ db.ancestorPolicies ids, RulesValid q.rules := by
  intro q hq
  obtain ⟨id,-,hid⟩ := mem_filterMap.mp hq
  obtain ⟨s,hs,rfl⟩ := Option.map_eq_some_iff.mp hid
  exact hdb.policies s (List.mem_of_find?_eq_some hs)

theorem admitPolicyTransactions_ok {a : Option PolicyAdmission} (hdb : Accounted db)
    (h : db.admitPolicyTransactions env r = .ok (db',a)) : db' = db ∨
      ∃ ids p x, keyAncestry db.keys r.key = .ok ids ∧ MeetOf (db.ancestorPolicies ids) p ∧
        (∀ leg ∈ r.legs, validatePrecision leg.precision = .ok ()) ∧ Admitted r (db.ancestorPolicies ids) p db db' x := by
  obtain ⟨-,h⟩ := ok_of_guard h
  obtain ⟨_,hlegs,h⟩ := bind_ok h
  rw [Results.checkAll_ok] at hlegs
  obtain ⟨ids,hids,h⟩ := bind_ok h
  split at h
  · obtain ⟨x,-,h⟩ := bind_ok h
    cases h
    exact .inl rfl
  obtain ⟨effective,heffective,h⟩ := bind_ok h
  cases effective with
  | none =>
    cases h
    exact .inl rfl
  | some p =>
    obtain ⟨-,h⟩ := ok_of_guard h
    obtain ⟨⟨admitted,x⟩,hadmission,h⟩ := bind_ok h
    cases h
    have hne : db.ancestorPolicies ids ≠ [] := by
      intro hnil
      rw [hnil] at heffective
      cases heffective
    obtain ⟨q,hq,hmeet⟩ := @intersect_spec r.key _ hdb.ancestors_valid hne
    rw [hq] at heffective
    cases heffective
    exact .inr ⟨ids,p,x,hids,hmeet,hlegs,admitLegs_ok hdb hdb.ancestors_valid hmeet hadmission⟩

theorem decide_final {keys : List ApiKey} {a' : PolicyAdmission} {p : Principal} {approve : Bool}
    (h : decidePolicyApproval keys a p approve = .ok a') : a'.id = a.id ∧ Follows a.decision a'.decision := by
  obtain ⟨-,h⟩ := ok_of_guard h
  obtain ⟨_,-,hdecide⟩ := bind_ok h
  simp only at hdecide
  have hmade : (if approve then approved else .rejected) ≠ .notRequired := by cases approve <;> decide
  generalize (if approve then approved else .rejected) = decision at hdecide hmade
  split at hdecide
  · cases hdecide
    exact ⟨rfl,.refl _⟩
  obtain ⟨hpending,hdecide⟩ := ok_of_guard hdecide
  cases hdecide
  exact ⟨rfl,fun hne => absurd hne hpending,fun _ => hmade⟩

theorem Accounted.decideAdmission (hdb : Accounted db) {p : Principal} {approve : Bool}
    (h : db.decideAdmission id p approve = .ok db') : Accounted db' ∧ Advances db db' := by
  unfold PolicyDatabase.decideAdmission at h
  split at h
  · cases h
  rename_i a ha
  obtain ⟨a',ha',h⟩ := bind_ok h
  cases h
  obtain ⟨hid,hkept⟩ := decide_final ha'
  have hkey := find_key ha
  have hdecided : ∀ x ∈ db.admissions, (if x.id = id then a' else x).id = x.id ∧
      Follows x.decision (if x.id = id then a' else x).decision := by
    intro x hx
    split
    · rename_i hxid
      obtain rfl : x = a := inj_on_of_nodup_map hdb.admitted hx (find_mem ha) (hxid.trans hkey.symm)
      exact ⟨hid,hkept⟩
    · exact ⟨rfl,.refl _⟩
  constructor
  · refine hdb.transport rfl rfl rfl ?_ hdb.policies
    rw [map_map]
    exact map_congr_left fun x hx => (hdecided x hx).1
  · exact ⟨fun b hb => ⟨b,hb,rfl,le_refl _⟩,fun x hx => ⟨_,mem_map_of_mem hx,hdecided x hx⟩⟩

theorem Accounted.putKeyPolicy (hdb : Accounted db) {upper : String → String} {manager : Principal}
    (h : db.putKeyPolicy upper manager p = .ok db') : Accounted db' ∧ Advances db db' := by
  obtain ⟨-,h⟩ := ok_of_guard h
  obtain ⟨_,hvalid,h⟩ := bind_ok h
  obtain ⟨_,-,h⟩ := bind_ok h
  obtain ⟨_,-,h⟩ := bind_ok h
  obtain ⟨_,-,h⟩ := bind_ok h
  obtain ⟨_,-,h⟩ := bind_ok h
  cases h
  refine ⟨hdb.transport rfl rfl rfl rfl fun s hs => ?_,.of_eq rfl rfl⟩
  have hrules := validate_ok hvalid
  unfold storePolicy at hs
  split at hs
  · obtain ⟨old,hold,rfl⟩ := mem_map.mp hs
    split
    · exact hrules
    · exact hdb.policies old hold
  · rcases mem_append.mp hs with hold | hnew
    · exact hdb.policies s hold
    · rw [mem_singleton.mp hnew]
      exact hrules

theorem Accounted.deleteKeyPolicy (hdb : Accounted db) {manager : Principal}
    (h : db.deleteKeyPolicy manager id = .ok db') : Accounted db' ∧ Advances db db' := by
  obtain ⟨_,-,h⟩ := bind_ok h
  obtain ⟨_,-,h⟩ := bind_ok h
  cases h
  refine ⟨hdb.transport rfl rfl rfl rfl fun s hs => ?_,.of_eq rfl rfl⟩
  obtain ⟨old,hold,rfl⟩ := mem_map.mp hs
  split <;> exact hdb.policies old hold

theorem Accounted.attempt (hdb : Accounted db) {e : PolicyEvent} (h : db.attempt env e = .ok db') :
    Accounted db' ∧ Advances db db' := by
  cases e with
  | createBalance id currency =>
    cases h
    exact ⟨hdb.transport rfl rfl rfl rfl hdb.policies,.of_eq rfl rfl⟩
  | createKey k =>
    obtain ⟨keys,-,h⟩ := bind_ok h
    cases h
    exact ⟨hdb.transport rfl rfl rfl rfl hdb.policies,.of_eq rfl rfl⟩
  | putPolicy manager p => exact hdb.putKeyPolicy h
  | deletePolicy manager id => exact hdb.deleteKeyPolicy h
  | admission r =>
    obtain ⟨⟨admitted,a⟩,hadmission,h⟩ := bind_ok h
    cases h
    rcases admitPolicyTransactions_ok hdb hadmission with rfl | ⟨ids,p,x,-,hmeet,hlegs,hadmitted⟩
    · exact ⟨hdb,.refl _⟩
    · exact ⟨hdb.admission hmeet hlegs hadmitted,hadmitted.advances⟩
  | decision id p approve => exact hdb.decideAdmission h
  | posting marked new =>
    rw [PolicyDatabase.attempt] at h
    split_ifs at h
    obtain ⟨_,-,h⟩ := bind_ok h
    exact hdb.insertTransaction h
  | settlement new =>
    obtain ⟨_,-,h⟩ := bind_ok h
    exact hdb.insertTransaction h
  | voiding new =>
    rw [PolicyDatabase.attempt] at h
    split_ifs at h
    exact hdb.insertTransaction h
  | release id => exact hdb.releasePolicyLeg h

theorem step_cases (env : Environment) (db : PolicyDatabase) (e : PolicyEvent) :
    db.attempt env e = .ok (db.step env e) ∨ db.step env e = db := by
  unfold step
  cases db.attempt env e with
  | error msg => exact .inr rfl
  | ok db' => exact .inl rfl

theorem Accounted.step (hdb : Accounted db) (env : Environment) (e : PolicyEvent) :
    Accounted (db.step env e) ∧ Advances db (db.step env e) := by
  rcases step_cases env db e with hok | hsame
  · exact hdb.attempt hok
  · rw [hsame]
    exact ⟨hdb,.refl _⟩

theorem Accounted.run (hdb : Accounted db) (env : Environment) (events : List PolicyEvent) : Accounted (db.run env events) := by
  induction events generalizing db with
  | nil => exact hdb
  | cons e events ih => exact ih (hdb.step env e).1

theorem accounted_install (ledger : Database) : Accounted (.install ledger) :=
  ⟨fun _ => rfl,nofun,nofun,nofun,nofun,nofun,nodup_nil,nodup_nil,nodup_nil,nofun⟩

section

variable {reference : String} {unused : ℤ}

theorem bindingByID_setReleased (id : String) : (db.setReleased reference unused).bindingByID id =
    (db.bindingByID id).map fun b => if b.reference = reference then { b with released := unused } else b := by
  unfold bindingByID
  rw [map_findSome?]
  congr 1
  funext x
  exact find_map _ fun b => by split <;> rfl

theorem inherits_setReleased (b : PolicyBinding) (family : List Row) (t : Row) :
    (db.setReleased reference unused).inherits { b with released := unused } family t = db.inherits b family t := by
  have hothers : ((db.setReleased reference unused).bindings.any fun other =>
      other.transactionID = t.transactionID && other.reference ≠ b.reference) =
      db.bindings.any fun other => other.transactionID = t.transactionID && other.reference ≠ b.reference := by
    have hmap := @map_setReleased db reference unused Bool (fun other => decide (other.transactionID = t.transactionID) &&
      decide (other.reference ≠ b.reference)) fun _ => rfl
    simpa only [any_map,comp_def,id] using congrArg (fun l => l.any id) hmap
  unfold inherits
  rw [hothers]

theorem family_setReleased (b : PolicyBinding) (n : ℕ) :
    (db.setReleased reference unused).family { b with released := unused } n = db.family b n := by
  induction n with
  | zero => rfl
  | succ n ih =>
    unfold family
    rw [ih]
    simp only [inherits_setReleased]
    rfl

theorem policyReleasableCapacity_setReleased (b : PolicyBinding) :
    (db.setReleased reference unused).policyReleasableCapacity { b with released := unused } = db.policyReleasableCapacity b := by
  unfold policyReleasableCapacity
  rw [family_setReleased]
  rfl

end

theorem policyReleasableCapacity_congr (hledger : db'.ledger = db.ledger) (hbindings : db'.bindings = db.bindings) (b : PolicyBinding) :
    db'.policyReleasableCapacity b = db.policyReleasableCapacity b := by
  have hfamily : ∀ n, db'.family b n = db.family b n := by
    intro n
    induction n with
    | zero =>
      unfold family
      rw [hledger]
    | succ n ih =>
      unfold family inherits
      rw [ih,hledger,hbindings]
  unfold policyReleasableCapacity
  rw [hfamily,hledger]

def Exhausted (db : PolicyDatabase) (id : String) : Prop := ∀ b, db.bindingByID id = some b → db.policyReleasableCapacity b ≤ b.released

theorem Exhausted.release (h : Exhausted db id) (env : Environment) : db.step env (.release id) = db := by
  change (db.releasePolicyLeg id).toOption.getD db = db
  unfold releasePolicyLeg
  split
  · rfl
  rename_i b hb
  have hle := h b hb
  split
  · rfl
  · rw [if_pos (sub_nonpos.mpr hle)]
    rfl

theorem exhausted_of_releaseExcess (hb : db.bindingByID id = some b)
    (h : db.releaseExcess b = .ok db') (admissionID : String) : Exhausted (db'.rejectExhausted admissionID) id := by
  unfold releaseExcess at h
  split at h
  · obtain ⟨mid,hmid,h⟩ := bind_ok h
    cases h
    obtain ⟨usage,-,hmid⟩ := bind_ok hmid
    cases hmid
    intro x hx
    have hfound := @bindingByID_setReleased db b.reference (db.policyReleasableCapacity b) id
    rw [hb,Option.map_some,if_pos rfl] at hfound
    cases hx.symm.trans hfound
    have hsame := @policyReleasableCapacity_setReleased db b.reference (db.policyReleasableCapacity b) b
    refine le_of_eq (Eq.trans ?_ hsame)
    apply policyReleasableCapacity_congr <;> rfl
  · cases h
    intro x hx
    cases hx.symm.trans hb
    have hsame := @policyReleasableCapacity_congr db (db.rejectExhausted admissionID) rfl rfl b
    omega

theorem exhausted_release (env : Environment) (id : String) :
    Exhausted (db.step env (.release id)) id ∨ db.step env (.release id) = db := by
  rcases step_cases env db (.release id) with hok | hsame
  · change db.releasePolicyLeg id = .ok _ at hok
    unfold releasePolicyLeg at hok
    split at hok
    · exact .inr (ok.inj hok).symm
    rename_i b hb
    split_ifs at hok
    · exact .inr (ok.inj hok).symm
    obtain ⟨released,hreleased,hok⟩ := bind_ok hok
    rw [← ok.inj hok]
    exact .inl (exhausted_of_releaseExcess hb hreleased _)
  · exact .inr hsame

theorem exhausted_insert (hends : Row.ends new = true) (h : db.insertTransaction env new = .ok db') :
    Exhausted db' new.transactionID := by
  obtain ⟨_,-,h⟩ := bind_ok h
  obtain ⟨ledger,-,h⟩ := bind_ok h
  unfold releaseTerminalPolicyReservation at h
  rw [hends] at h
  simp only [Bool.not_true,Bool.false_eq_true,↓reduceIte] at h
  split at h
  · rename_i hnone
    cases h
    intro b hb
    rw [hnone] at hb
    cases hb
  · rename_i b hb
    obtain ⟨released,hreleased,h⟩ := bind_ok h
    cases h
    exact exhausted_of_releaseExcess hb hreleased _

theorem retry_unchanged (env : Environment) (ha : a ∈ db.admissions)
    (hkey : a.apiKeyID = r.key) (hidentity : a.identity = r.identity) : db.step env (.admission r) = db := by
  rcases step_cases env db (.admission r) with hok | hsame
  · obtain ⟨⟨admitted,x⟩,hadmission,hok⟩ := bind_ok hok
    cases hok
    obtain ⟨-,hadmission⟩ := ok_of_guard hadmission
    obtain ⟨_,-,hadmission⟩ := bind_ok hadmission
    obtain ⟨ids,-,hadmission⟩ := bind_ok hadmission
    split at hadmission
    · obtain ⟨y,-,hadmission⟩ := bind_ok hadmission
      exact (congrArg Prod.fst (ok.inj hadmission)).symm
    rename_i hnone
    have := List.find?_eq_none.mp hnone a ha
    simp [hkey,hidentity] at this
  · exact hsame

end LedgerForge.Policy
