import LedgerForge.Policy.Intersection

/-! # Narrowing

An accepted child states a part of what its ancestors permit. Restricting it by every ancestor then changes
neither its allowlists nor its rules.
-/

namespace LedgerForge.Policy

open List KeyPolicy SpendingRule Results Option Bool

theorem limitValue_eq_top {s : String} (h : Canonical s) : limitValue s = ⊤ ↔ s = "" := by
  unfold limitValue
  split
  · rename_i hempty
    exact ⟨fun _ => hempty,fun _ => rfl⟩
  rename_i hne
  obtain ⟨n,hn⟩ := isSome_iff_exists.mp (h.resolve_left hne)
  rw [hn]
  exact ⟨fun htop => absurd htop (WithTop.natCast_ne_top n),fun hempty => absurd hempty hne⟩

variable {c key : String}

theorem checkLimit_ok {p : String} (h : checkLimit c p = .ok ()) :
    p = "" ∨ ∃ x y, integer c = some x ∧ integer p = some y ∧ x ≤ y := by
  unfold checkLimit at h
  split_ifs at h with hp hc
  · exact .inl hp
  right
  obtain ⟨smaller,hmin,hsame⟩ := bind_ok h
  split_ifs at hsame with heq
  rw [minimum,if_neg hc,if_neg hp] at hmin
  split at hmin
  · rename_i x y hx hy
    refine ⟨x,y,hx,hy,?_⟩
    by_contra hlt
    rw [if_neg hlt] at hmin
    -- the other text was chosen, so it is the same text
    cases hmin
    rw [heq,hx] at hy
    exact hlt (some.inj hy).le
  · cases hmin

theorem checkLimit_of_le {p : String} (h : p ≠ "" → ∃ x y, integer c = some x ∧ integer p = some y ∧ x ≤ y) :
    checkLimit c p = .ok () := by
  unfold checkLimit
  split
  · rfl
  rename_i hp
  obtain ⟨x,y,hx,hy,hle⟩ := h hp
  have hc : c ≠ "" := by
    rintro rfl
    cases hx
  rw [if_neg hc,minimum,if_neg hc,if_neg hp,hx,hy]
  simp only [if_pos hle]
  exact if_pos rfl

theorem minimum_of_narrowed {least b : String} (hb : Canonical b) (hleast : Canonical least)
    (hle : limitValue least ≤ limitValue b) (h : checkLimit c least = .ok ()) : minimum c b = .ok c := by
  unfold minimum
  rcases checkLimit_ok h with hempty | ⟨x,y,hx,hy,hxy⟩
  · -- no ancestor has a limit
    rw [(limitValue_eq_top hleast).mpr hempty,top_le_iff,limitValue_eq_top hb] at hle
    subst hle
    split
    · rename_i hc
      rw [hc]
    · rfl
  · have hc : c ≠ "" := by
      rintro rfl
      cases hx
    rw [if_neg hc]
    split
    · rfl
    rename_i hbne
    obtain ⟨z,hz⟩ := isSome_iff_exists.mp (hb.resolve_left hbne)
    have hlne : least ≠ "" := by
      rintro rfl
      cases hy
    rw [limitValue,if_neg hlne,hy,limitValue,if_neg hbne,hz] at hle
    have hyz : y ≤ z := Nat.cast_le.mp hle
    simp only [hx,hz,if_pos (hxy.trans hyz)]

theorem checkRule_ok {parent : List SpendingRule} {c : SpendingRule} (h : checkRule parent c = .ok ()) :
    ∃ p ∈ parent, p.key = c.key ∧ ∀ k, checkLimit (c.limit k) (p.limit k) = .ok () := by
  unfold checkRule at h
  split at h
  · cases h
  rename_i p hp
  obtain ⟨_,hmax,h⟩ := bind_ok h
  obtain ⟨_,hdaily,happroval⟩ := bind_ok h
  refine ⟨p,List.mem_of_find?_eq_some hp,by simpa using List.find?_some hp,fun k => ?_⟩
  cases k
  · exact hmax
  · exact hdaily
  · exact happroval

theorem checkRule_of_limits {parent : List SpendingRule} {c : SpendingRule} (hsome : ∃ p ∈ parent, p.key = c.key)
    (h : ∀ p ∈ parent, p.key = c.key → ∀ k, checkLimit (c.limit k) (p.limit k) = .ok ()) : checkRule parent c = .ok () := by
  unfold checkRule
  split
  · rename_i hnone
    obtain ⟨p,hp,hkey⟩ := hsome
    exact absurd (decide_eq_true hkey) (List.find?_eq_none.mp hnone p hp)
  rename_i p hp
  have hlimits := h p (List.mem_of_find?_eq_some hp) (by simpa using List.find?_some hp)
  have hmax := hlimits .maxTransaction
  have hdaily := hlimits .dailyLimit
  have happroval := hlimits .approvalAbove
  simp only [limit] at hmax hdaily happroval
  rw [hmax,hdaily,happroval]
  rfl

theorem SpendingRule.meet_self {c b : SpendingRule} (h : ∀ k, minimum (c.limit k) (b.limit k) = .ok (c.limit k)) :
    c.meet b = .ok c := by
  have hmax := h .maxTransaction
  have hdaily := h .dailyLimit
  have happroval := h .approvalAbove
  simp only [limit] at hmax hdaily happroval
  rw [meet,hmax,hdaily,happroval]
  rfl

theorem meetRules_self {as bs : List SpendingRule} (hn : (bs.map SpendingRule.key).Nodup)
    (h : ∀ a ∈ as, ∃ b ∈ bs, b.key = a.key ∧ a.meet b = .ok a) : meetRules bs as = .ok as := by
  induction as with
  | nil => rfl
  | cons a as ih =>
    obtain ⟨b,hb,hkey,hmeet⟩ := h a mem_cons_self
    rw [meetRules,meetRule_of_mem hn hb hkey hmeet rfl,ih fun x hx => h x (mem_cons_of_mem _ hx)]
    rfl

theorem checkAllowlist_ok {child parent : List String} (h : checkAllowlist child parent = .ok ()) :
    parent = [] ∨ child ≠ [] ∧ ∀ id ∈ child, allowed parent id = true := by
  unfold checkAllowlist at h
  split_ifs at h with hp hc
  · exact .inl hp
  refine .inr ⟨hc,fun id hid => ?_⟩
  have hone := checkAll_ok.mp h id hid
  split at hone
  · assumption
  · cases hone

theorem checkAllowlist_of_allowed {child parent : List String} (hstated : parent ≠ [] → child ≠ [])
    (h : ∀ id ∈ child, allowed parent id = true) : checkAllowlist child parent = .ok () := by
  unfold checkAllowlist
  split
  · rfl
  rename_i hp
  rw [if_neg (hstated hp),checkAll_ok]
  exact fun id hid => if_pos (h id hid)

theorem intersectIDs_self {lists : List (List String)} {child parent l : List String} (hmeet : ListMeet lists parent)
    (h : checkAllowlist child parent = .ok ()) (hl : l ∈ lists) : intersectIDs child l = (child,false) := by
  unfold intersectIDs
  rcases checkAllowlist_ok h with hempty | ⟨hne,hall⟩
  · obtain rfl := hmeet.unrestricted.mp hempty l hl
    split
    · rename_i hc
      rw [hc]
    · rfl
  · rw [if_neg hne]
    split
    · rfl
    have hfilter : child.filter (allowed l) = child :=
      filter_eq_self.mpr fun id hid => (hmeet.allowed id).mp (hall id hid) l hl
    rw [hfilter]
    cases child with
    | nil => exact absurd rfl hne
    | cons id ids => rfl

/-- What the policies of a chain leave of a child. -/
structure Unchanged (child result : KeyPolicy) : Prop where
  denyAll : result.denyAll = false
  rules : result.rules = child.rules
  ledgerIDs : result.ledgerIDs = child.ledgerIDs
  balanceIDs : result.balanceIDs = child.balanceIDs

variable {parent child : KeyPolicy}

variable {result : KeyPolicy} {ancestors : List KeyPolicy}

/-- No ancestor changes an accepted child. -/
theorem Unchanged.restrict {p : KeyPolicy}
    (h : Unchanged child result) (hmeet : MeetOf ancestors parent) (hopen : child.denyAll = false)
    (haccepted : validateNarrowing child (some parent) = .ok ()) (hp : p ∈ ancestors) (hvalid : RulesValid p.rules) :
    ∃ q, result.restrict key p = .ok q ∧ Unchanged child q := by
  rw [validateNarrowing,if_neg (not_eq_true _ ▸ hopen)] at haccepted
  split_ifs at haccepted with hparent
  obtain ⟨_,hledgers,haccepted⟩ := bind_ok haccepted
  obtain ⟨_,hbalances,hrules⟩ := bind_ok haccepted
  have hparent := eq_false_of_not_eq_true hparent
  have hsame : meetRules p.rules result.rules = .ok child.rules := by
    rw [h.rules]
    apply meetRules_self hvalid.nodup
    intro c hc
    obtain ⟨r,hr,hkey,hlimits⟩ := checkRule_ok (checkAll_ok.mp hrules c hc)
    obtain ⟨b,hb,hbr⟩ := hmeet.common r hr p hp
    refine ⟨b,hb,hbr.trans hkey,SpendingRule.meet_self fun k => ?_⟩
    have hle := (hmeet.least r hr k).2 ⟨p,hp,b,hb,hbr,rfl⟩
    exact minimum_of_narrowed (hvalid.canonical b hb k) (hmeet.valid.canonical r hr k) hle (hlimits k)
  have hledger := intersectIDs_self (hmeet.ledgers hparent) hledgers (mem_map_of_mem hp)
  have hbalance := intersectIDs_self (hmeet.balances hparent) hbalances (mem_map_of_mem hp)
  refine ⟨{ result.record key p with
            rules := child.rules, ledgerIDs := child.ledgerIDs, balanceIDs := child.balanceIDs,
            denyAll := (result.record key p).denyAll || false || false },?_,?_,rfl,rfl,rfl⟩
  · rw [KeyPolicy.restrict,hsame,h.ledgerIDs,h.balanceIDs,hledger,hbalance]
    rfl
  · simp [KeyPolicy.record,h.denyAll,hmeet.grants hparent p hp]

theorem Unchanged.fold {ps : List KeyPolicy}
    (h : Unchanged child result) (hmeet : MeetOf ancestors parent) (hopen : child.denyAll = false)
    (haccepted : validateNarrowing child (some parent) = .ok ()) (hps : ∀ p ∈ ps, p ∈ ancestors ∧ RulesValid p.rules) :
    ∃ q, ps.foldlM (KeyPolicy.restrict key) result = .ok q ∧ Unchanged child q := by
  induction ps generalizing result with
  | nil => exact ⟨result,rfl,h⟩
  | cons p ps ih =>
    obtain ⟨hp,hvalid⟩ := hps p mem_cons_self
    obtain ⟨mid,hmid,hkept⟩ := @Unchanged.restrict key _ _ _ _ _ h hmeet hopen haccepted hp hvalid
    obtain ⟨q,hq,hlast⟩ := ih hkept fun x hx => hps x (mem_cons_of_mem _ hx)
    refine ⟨q,?_,hlast⟩
    rw [foldlM_cons,hmid]
    exact hq

theorem intersect_of_accepted {parent : Option KeyPolicy}
    (hvalid : ∀ p ∈ ancestors, RulesValid p.rules) (hparent : intersect key ancestors = .ok parent)
    (hopen : child.denyAll = false) (haccepted : validateNarrowing child parent = .ok ()) :
    ∃ q, intersect key (child :: ancestors) = .ok (some q) ∧ (∀ leg, q.permits leg = child.permits leg) ∧
      q.rules = child.rules := by
  have hstart : Unchanged child
      (record key { child with apiKeyID := key, version := 0, inheritedFrom := [] } child) :=
    ⟨by simp [record,hopen],rfl,rfl,rfl⟩
  have hfold : ∃ q, ancestors.foldlM (restrict key)
      (record key { child with apiKeyID := key, version := 0, inheritedFrom := [] } child) = .ok q ∧
      Unchanged child q := by
    by_cases hne : ancestors = []
    · subst hne
      exact ⟨_,rfl,hstart⟩
    obtain ⟨p,hp,hmeet⟩ := @intersect_spec key _ hvalid hne
    cases hparent.symm.trans hp
    exact hstart.fold hmeet hopen haccepted fun x hx => ⟨hx,hvalid x hx⟩
  obtain ⟨q,hq,hkept⟩ := hfold
  refine ⟨_,by rw [intersect,hq]; rfl,fun leg => permits_final.trans (by rw [permits,permits,hkept.denyAll,hopen,hkept.rules,hkept.ledgerIDs,hkept.balanceIDs]),?_⟩
  rw [← hkept.rules]
  split <;> rfl

/-- The child permits no more than its ancestors and states every allowlist and limit that they restrict. -/
structure Within (child parent : KeyPolicy) : Prop where
  legs : ∀ leg, child.permits leg = true → parent.permits leg = true
  ledgers : parent.ledgerIDs ≠ [] → child.ledgerIDs ≠ []
  balances : parent.balanceIDs ≠ [] → child.balanceIDs ≠ []
  limits : ∀ c ∈ child.rules, ∀ p ∈ parent.rules, p.key = c.key → ∀ k, p.limit k ≠ "" →
    ∃ x y, integer (c.limit k) = some x ∧ integer (p.limit k) = some y ∧ x ≤ y

def SpendingRule.leg (r : SpendingRule) (balance ledger : String) : PolicyLeg where
  transactionID := ""
  reference := ""
  source := balance
  destination := balance
  sourceLedger := ledger
  destinationLedger := ledger
  currency := r.currency
  precision := r.precision
  amount := "0"

theorem permits_leg {p : KeyPolicy} {r : SpendingRule} {balance ledger : String} : p.permits (r.leg balance ledger) = true ↔
    p.denyAll = false ∧ (∃ x ∈ p.rules, x.key = r.key) ∧ allowed p.balanceIDs balance = true ∧
      allowed p.ledgerIDs ledger = true := by
  rw [permits_iff]
  simp [leg,key]

theorem exists_allowed (list : List String) : ∃ id, allowed list id = true := by
  cases list with
  | nil => exact ⟨"",rfl⟩
  | cons id ids => exact ⟨id,allowed_iff.mpr (.inr mem_cons_self)⟩

theorem accepted_of_within (hne : child.rules ≠ []) (h : Within child parent) :
    validateNarrowing child (some parent) = .ok () := by
  rw [validateNarrowing]
  split
  · rfl
  rename_i hopen
  rw [not_eq_true] at hopen
  obtain ⟨balance,hbalance⟩ := exists_allowed child.balanceIDs
  obtain ⟨ledger,hledger⟩ := exists_allowed child.ledgerIDs
  obtain ⟨c,hc⟩ := exists_mem_of_ne_nil _ hne
  have hleg : ∀ {x b l}, x ∈ child.rules → allowed child.balanceIDs b = true → allowed child.ledgerIDs l = true →
      parent.denyAll = false ∧ (∃ p ∈ parent.rules, p.key = x.key) ∧ allowed parent.balanceIDs b = true ∧
        allowed parent.ledgerIDs l = true := fun hx hb hl =>
    permits_leg.mp (h.legs _ (permits_leg.mpr ⟨hopen,⟨_,hx,rfl⟩,hb,hl⟩))
  have hledgers := checkAllowlist_of_allowed h.ledgers fun id hid =>
    (hleg hc hbalance (allowed_iff.mpr (.inr hid))).2.2.2
  have hbalances := checkAllowlist_of_allowed h.balances fun id hid =>
    (hleg hc (allowed_iff.mpr (.inr hid)) hledger).2.2.1
  have hrules : checkAll (checkRule parent.rules) child.rules = .ok () := by
    rw [checkAll_ok]
    intro x hx
    apply checkRule_of_limits (hleg hx hbalance hledger).2.1
    intro p hp hkey k
    exact checkLimit_of_le (h.limits x hx p hp hkey k)
  rw [if_neg (not_eq_true _ ▸ (hleg hc hbalance hledger).1),hledgers,hbalances]
  exact hrules

end LedgerForge.Policy
