import LedgerForge.Policy.Rules

/-! # The effective policy is the meet of the chain

Limits are numbers with a largest element for an absent limit. Each restriction step keeps the rules that both
sides have with the smaller limits, and permits what both sides permit.
-/

namespace LedgerForge.Policy

open List SpendingRule KeyPolicy

def limitValue (s : String) : WithTop ℕ := if s = "" then ⊤ else (integer s).elim ⊤ fun n => (n : WithTop ℕ)

def Canonical (s : String) : Prop := s = "" ∨ (integer s).isSome

theorem minimum_spec {a b : String} (ha : Canonical a) (hb : Canonical b) :
    ∃ c, minimum a b = .ok c ∧ Canonical c ∧ limitValue c = min (limitValue a) (limitValue b) := by
  unfold minimum
  split
  · rename_i hempty
    exact ⟨b,rfl,hb,by simp [limitValue,hempty]⟩
  rename_i hane
  split
  · rename_i hempty
    exact ⟨a,rfl,ha,by simp [limitValue,hempty]⟩
  rename_i hbne
  obtain ⟨x,hx⟩ := Option.isSome_iff_exists.mp (ha.resolve_left hane)
  obtain ⟨y,hy⟩ := Option.isSome_iff_exists.mp (hb.resolve_left hbne)
  have hva : limitValue a = x := by simp [limitValue,hane,hx]
  have hvb : limitValue b = y := by simp [limitValue,hbne,hy]
  simp only [hx,hy]
  split
  · rename_i hle
    refine ⟨a,rfl,ha,?_⟩
    rw [hva,hvb,min_eq_left (Nat.cast_le.mpr hle)]
  · rename_i hlt
    refine ⟨b,rfl,hb,?_⟩
    rw [hva,hvb,min_eq_right (Nat.cast_le.mpr (not_le.mp hlt).le)]

theorem SpendingRule.meet_spec {a b : SpendingRule} (ha : ∀ k, Canonical (a.limit k)) (hb : ∀ k, Canonical (b.limit k)) :
    ∃ c, a.meet b = .ok c ∧ c.key = a.key ∧ c.precision = a.precision ∧
      ∀ k, Canonical (c.limit k) ∧ limitValue (c.limit k) = min (limitValue (a.limit k)) (limitValue (b.limit k)) := by
  obtain ⟨m,hm,hmax⟩ := minimum_spec (ha .maxTransaction) (hb .maxTransaction)
  obtain ⟨d,hd,hdaily⟩ := minimum_spec (ha .dailyLimit) (hb .dailyLimit)
  obtain ⟨p,hp,happroval⟩ := minimum_spec (ha .approvalAbove) (hb .approvalAbove)
  simp only [limit] at hm hd hp
  refine ⟨{ a with maxTransaction := m, dailyLimit := d, approvalAbove := p },?_,rfl,rfl,fun k => ?_⟩
  · rw [meet,hm,hd,hp]
    rfl
  · cases k
    · exact hmax
    · exact hdaily
    · exact happroval

/-- What validation establishes about the rules of a policy. -/
structure RulesValid (rules : List SpendingRule) : Prop where
  canonical : ∀ r ∈ rules, ∀ k, Canonical (r.limit k)
  nodup : (rules.map key).Nodup
  integral : ∀ r ∈ rules, ∃ n : ℤ, r.precision.toInt? = some n ∧ 1 ≤ n

theorem canonical_of_validateLimit {s : String} (h : validateLimit s = .ok ()) : Canonical s := by
  unfold validateLimit at h
  split at h
  · assumption
  · cases h

theorem validateRules_ok {upper : String → String} {seen : List String} {rules : List SpendingRule}
    (h : validateRules upper seen rules = .ok ()) : RulesValid rules ∧ ∀ r ∈ rules, r.key ∉ seen := by
  induction rules generalizing seen with
  | nil =>
    exact ⟨⟨fun _ hr => absurd hr not_mem_nil,nodup_nil,fun _ hr => absurd hr not_mem_nil⟩,
      fun _ hr => absurd hr not_mem_nil⟩
  | cons r rules ih =>
    rw [validateRules] at h
    split_ifs at h with hterms hseen
    obtain ⟨_,hlimits,hrest⟩ := bind_ok h
    obtain ⟨hvalid,hunseen⟩ := ih hrest
    rw [Results.checkAll_ok] at hlimits
    refine ⟨⟨?_,?_,?_⟩,?_⟩
    · rintro x hx k
      rcases mem_cons.mp hx with rfl | hx
      · apply canonical_of_validateLimit
        apply hlimits
        cases k <;> simp [limit]
      · exact hvalid.canonical x hx k
    · rw [map_cons,nodup_cons]
      refine ⟨fun hmem => ?_,hvalid.nodup⟩
      obtain ⟨x,hx,hkey⟩ := mem_map.mp hmem
      exact hunseen x hx (hkey ▸ mem_cons_self)
    · push Not at hterms
      obtain ⟨n,hn,hpos⟩ := hterms.2.2
      exact forall_mem_cons.mpr ⟨⟨n,hn,hpos⟩,hvalid.integral⟩
    · intro x hx
      rcases mem_cons.mp hx with rfl | hx
      · exact hseen
      · exact fun hmem => hunseen x hx (mem_cons_of_mem _ hmem)

theorem validate_ok {upper : String → String} {p : KeyPolicy} (h : validate upper p = .ok ()) : RulesValid p.rules := by
  obtain ⟨-,h⟩ := ok_of_guard h
  exact (validateRules_ok h).1

section Rules

variable {a : SpendingRule} {as bs : List SpendingRule}

theorem meetRule_nil (h : ∀ b ∈ bs, b.key ≠ a.key) : meetRule a bs = .ok [] := by
  induction bs with
  | nil => rfl
  | cons b bs ih =>
    rw [meetRule,if_pos (Ne.symm (h b mem_cons_self))]
    exact ih fun x hx => h x (mem_cons_of_mem _ hx)

theorem meetRule_of_mem {b c : SpendingRule} (hn : (bs.map key).Nodup) (hb : b ∈ bs) (hkey : b.key = a.key)
    (hc : a.meet b = .ok c) (hck : c.key = a.key) : meetRule a bs = .ok [c] := by
  induction bs with
  | nil => exact absurd hb not_mem_nil
  | cons x bs ih =>
    rw [map_cons,nodup_cons] at hn
    have hother : ∀ y ∈ bs, y.key ≠ x.key := fun y hy he => hn.1 (he ▸ mem_map_of_mem hy)
    rcases mem_cons.mp hb with rfl | hb
    · rw [meetRule,if_neg (not_not.mpr hkey.symm),hc]
      have hrest : meetRule c bs = .ok [] := meetRule_nil fun y hy he => hother y hy (he.trans (hck.trans hkey.symm))
      simp only [bind,Except.bind,hrest]
    · rw [meetRule,if_pos fun he => hother b hb (hkey.trans he)]
      exact ih hn.2 hb

/-- The rules of a restriction are the common ones, with the smaller limits. -/
theorem meetRules_spec (has : RulesValid as) (hbs : RulesValid bs) : ∃ rs, meetRules bs as = .ok rs ∧ RulesValid rs ∧
    (rs.map key).Sublist (as.map key) ∧
    (∀ r ∈ rs, ∃ a ∈ as, ∃ b ∈ bs, a.key = r.key ∧ b.key = r.key ∧
      ∀ k, limitValue (r.limit k) = min (limitValue (a.limit k)) (limitValue (b.limit k))) ∧
    ∀ a ∈ as, ∀ b ∈ bs, a.key = b.key → ∃ r ∈ rs, r.key = a.key := by
  induction as with
  | nil =>
    exact ⟨[],rfl,has,List.Sublist.refl _,fun _ h => absurd h not_mem_nil,fun _ h => absurd h not_mem_nil⟩
  | cons a as ih =>
    have hn := has.nodup
    rw [map_cons,nodup_cons] at hn
    obtain ⟨rs,hrs,hvalid,hsub,hfrom,hall⟩ := ih ⟨fun r hr => has.canonical r (mem_cons_of_mem _ hr),hn.2,
      fun r hr => has.integral r (mem_cons_of_mem _ hr)⟩
    by_cases hcommon : ∃ b ∈ bs, b.key = a.key
    · obtain ⟨b,hb,hkey⟩ := hcommon
      obtain ⟨c,hc,hck,hprecision,hlimits⟩ := meet_spec (has.canonical a mem_cons_self) (hbs.canonical b hb)
      have hsub' : ((c :: rs).map key).Sublist ((a :: as).map key) := by
        rw [map_cons,hck]
        exact hsub.cons_cons _
      refine ⟨c :: rs,?_,⟨?_,hsub'.nodup has.nodup,?_⟩,hsub',?_,?_⟩
      · rw [meetRules,meetRule_of_mem hbs.nodup hb hkey hc hck,hrs]
        rfl
      · exact forall_mem_cons.mpr ⟨fun k => (hlimits k).1,hvalid.canonical⟩
      · exact forall_mem_cons.mpr ⟨hprecision ▸ has.integral a mem_cons_self,hvalid.integral⟩
      · refine forall_mem_cons.mpr ⟨⟨a,mem_cons_self,b,hb,hck.symm,hkey.trans hck.symm,fun k => (hlimits k).2⟩,?_⟩
        intro r hr
        obtain ⟨x,hx,hrest⟩ := hfrom r hr
        exact ⟨x,mem_cons_of_mem _ hx,hrest⟩
      · refine forall_mem_cons.mpr ⟨fun _ _ _ => ⟨c,mem_cons_self,hck⟩,fun x hx y hy he => ?_⟩
        obtain ⟨r,hr,hrk⟩ := hall x hx y hy he
        exact ⟨r,mem_cons_of_mem _ hr,hrk⟩
    · have hnone : ∀ b ∈ bs, b.key ≠ a.key := fun b hb he => hcommon ⟨b,hb,he⟩
      refine ⟨rs,?_,hvalid,hsub.cons _,?_,?_⟩
      · rw [meetRules,meetRule_nil hnone,hrs]
        rfl
      · intro r hr
        obtain ⟨x,hx,hrest⟩ := hfrom r hr
        exact ⟨x,mem_cons_of_mem _ hx,hrest⟩
      · exact forall_mem_cons.mpr ⟨fun b hb he => absurd he.symm (hnone b hb),hall⟩

end Rules

theorem allowed_iff {list : List String} {id : String} : allowed list id = true ↔ list = [] ∨ id ∈ list :=
  decide_eq_true_iff

theorem allowed_intersectIDs {a b : List String} {id : String} (h : (intersectIDs a b).2 = false) :
    allowed (intersectIDs a b).1 id = true ↔ allowed a id = true ∧ allowed b id = true := by
  unfold intersectIDs at h ⊢
  split at h
  · rename_i ha
    simp [ha,allowed]
  rename_i ha
  split at h
  · rename_i hb
    simp [ha,hb,allowed]
  rename_i hb
  rw [if_neg ha,if_neg hb,allowed_iff,allowed_iff,or_iff_right ha,or_iff_right,mem_filter]
  intro hnil
  exact Bool.eq_false_iff.mp h (List.isEmpty_iff.mpr hnil)

theorem not_allowed_of_empty {a b : List String} {id : String} (h : (intersectIDs a b).2 = true) :
    ¬ (allowed a id = true ∧ allowed b id = true) := by
  unfold intersectIDs at h
  split at h
  · cases h
  rename_i ha
  split at h
  · cases h
  rintro ⟨hida,hidb⟩
  have hmem := mem_filter.mpr ⟨(allowed_iff.mp hida).resolve_left ha,hidb⟩
  rw [List.isEmpty_iff.mp h] at hmem
  exact absurd hmem not_mem_nil

theorem intersectIDs_eq_nil {a b : List String} (h : (intersectIDs a b).2 = false) :
    (intersectIDs a b).1 = [] ↔ a = [] ∧ b = [] := by
  unfold intersectIDs at h ⊢
  split at h
  · rename_i ha
    simp [ha]
  rename_i ha
  split at h
  · rename_i hb
    simp [ha,hb]
  rename_i hb
  rw [if_neg ha,if_neg hb]
  exact ⟨fun hnil => absurd (List.isEmpty_iff.mpr hnil) (Bool.eq_false_iff.mp h),fun hnil => absurd hnil.1 ha⟩

/-- An allowlist that restricts like the lists of a chain together. -/
structure ListMeet (lists : List (List String)) (list : List String) : Prop where
  unrestricted : list = [] ↔ ∀ l ∈ lists, l = []
  allowed : ∀ id, allowed list id = true ↔ ∀ l ∈ lists, allowed l id = true

theorem ListMeet.intersectIDs {lists : List (List String)} {a b : List String} (h : ListMeet lists a)
    (hne : (intersectIDs a b).2 = false) : ListMeet (lists ++ [b]) (intersectIDs a b).1 := by
  constructor
  · rw [intersectIDs_eq_nil hne,h.unrestricted,forall_mem_append,forall_mem_singleton]
  · intro id
    rw [allowed_intersectIDs hne,h.allowed,forall_mem_append,forall_mem_singleton]

theorem KeyPolicy.permits_iff {p : KeyPolicy} {leg : PolicyLeg} : p.permits leg = true ↔
    p.denyAll = false ∧ (∃ r ∈ p.rules, r.key = ruleKey leg.currency leg.precision) ∧
      (∀ id ∈ [leg.source,leg.destination], allowed p.balanceIDs id = true) ∧
      ∀ id ∈ [leg.sourceLedger,leg.destinationLedger], allowed p.ledgerIDs id = true := by
  simp only [permits,Bool.and_eq_true,Bool.not_eq_true',any_eq_true,decide_eq_true_eq,mem_cons,
    not_mem_nil,or_false,forall_eq_or_imp,forall_eq]
  tauto

/-- Everything about a restriction: it permits what both policies permit, with the least limits. -/
theorem restrict_spec {key : String} {result p : KeyPolicy} (hresult : RulesValid result.rules) (hp : RulesValid p.rules) :
    ∃ q, result.restrict key p = .ok q ∧ RulesValid q.rules ∧
      (q.denyAll = false → result.denyAll = false ∧ p.denyAll = false ∧
        (intersectIDs result.ledgerIDs p.ledgerIDs).2 = false ∧ (intersectIDs result.balanceIDs p.balanceIDs).2 = false) ∧
      q.ledgerIDs = (intersectIDs result.ledgerIDs p.ledgerIDs).1 ∧
      q.balanceIDs = (intersectIDs result.balanceIDs p.balanceIDs).1 ∧
      (∀ leg, q.permits leg = true ↔ result.permits leg = true ∧ p.permits leg = true) ∧
      ∀ r ∈ q.rules, ∃ a ∈ result.rules, ∃ b ∈ p.rules, a.key = r.key ∧ b.key = r.key ∧
        ∀ k, limitValue (r.limit k) = min (limitValue (a.limit k)) (limitValue (b.limit k)) := by
  obtain ⟨rs,hrs,hvalid,-,hfrom,hall⟩ := meetRules_spec hresult hp
  have hrule : ∀ k, (∃ r ∈ rs, r.key = k) ↔ (∃ a ∈ result.rules, a.key = k) ∧ ∃ b ∈ p.rules, b.key = k := by
    intro k
    constructor
    · rintro ⟨r,hr,rfl⟩
      obtain ⟨a,ha,b,hb,hak,hbk,-⟩ := hfrom r hr
      exact ⟨⟨a,ha,hak⟩,⟨b,hb,hbk⟩⟩
    · rintro ⟨⟨a,ha,rfl⟩,b,hb,hbk⟩
      exact hall a ha b hb hbk.symm
  refine ⟨_,by rw [restrict,hrs]; rfl,hvalid,fun hopen => ?_,rfl,rfl,fun leg => ?_,hfrom⟩
  · simp only [record,Bool.or_eq_false_iff] at hopen
    exact ⟨hopen.1.1.1,hopen.1.1.2,hopen.1.2,hopen.2⟩
  simp only [permits_iff,record,Bool.or_eq_false_iff,hrule]
  constructor
  · rintro ⟨⟨⟨⟨hr,hpd⟩,hledger⟩,hbalance⟩,⟨hra,hrb⟩,hbalances,hledgers⟩
    have hb := fun id hid => (allowed_intersectIDs hbalance).mp (hbalances id hid)
    have hl := fun id hid => (allowed_intersectIDs hledger).mp (hledgers id hid)
    exact ⟨⟨hr,hra,fun id hid => (hb id hid).1,fun id hid => (hl id hid).1⟩,
      hpd,hrb,fun id hid => (hb id hid).2,fun id hid => (hl id hid).2⟩
  · rintro ⟨⟨hr,hra,hba,hla⟩,hpd,hrb,hbb,hlb⟩
    have hledger : (intersectIDs result.ledgerIDs p.ledgerIDs).2 = false := by
      apply Bool.eq_false_of_not_eq_true
      intro hempty
      exact not_allowed_of_empty hempty ⟨hla _ mem_cons_self,hlb _ mem_cons_self⟩
    have hbalance : (intersectIDs result.balanceIDs p.balanceIDs).2 = false := by
      apply Bool.eq_false_of_not_eq_true
      intro hempty
      exact not_allowed_of_empty hempty ⟨hba _ mem_cons_self,hbb _ mem_cons_self⟩
    exact ⟨⟨⟨⟨hr,hpd⟩,hledger⟩,hbalance⟩,⟨hra,hrb⟩,
      fun id hid => (allowed_intersectIDs hbalance).mpr ⟨hba id hid,hbb id hid⟩,
      fun id hid => (allowed_intersectIDs hledger).mpr ⟨hla id hid,hlb id hid⟩⟩

def Declared (ps : List KeyPolicy) (key : String) (k : Limit) : Set (WithTop ℕ) :=
  {v | ∃ p ∈ ps, ∃ r ∈ p.rules, r.key = key ∧ limitValue (r.limit k) = v}

theorem declared_single {p : KeyPolicy} (hp : RulesValid p.rules) {r : SpendingRule} (hr : r ∈ p.rules) (k : Limit) :
    IsLeast (Declared [p] r.key k) (limitValue (r.limit k)) := by
  refine ⟨⟨p,mem_singleton_self p,r,hr,rfl,rfl⟩,?_⟩
  rintro v ⟨q,hq,x,hx,hkey,rfl⟩
  obtain rfl := mem_singleton.mp hq
  rw [inj_on_of_nodup_map hp.nodup hx hr hkey]

theorem declared_append (ps qs : List KeyPolicy) (key : String) (k : Limit) :
    Declared (ps ++ qs) key k = Declared ps key k ∪ Declared qs key k := by
  ext v
  simp only [Declared,mem_append,or_and_right,exists_or,Set.mem_ofPred_eq,Set.mem_union]

/-- A policy that has the permissions and the limits of a chain. -/
structure MeetOf (ps : List KeyPolicy) (q : KeyPolicy) : Prop where
  valid : RulesValid q.rules
  permits : ∀ leg, q.permits leg = true ↔ ∀ p ∈ ps, p.permits leg = true
  least : ∀ r ∈ q.rules, ∀ k, IsLeast (Declared ps r.key k) (limitValue (r.limit k))
  common : ∀ r ∈ q.rules, ∀ p ∈ ps, ∃ x ∈ p.rules, x.key = r.key
  grants : q.denyAll = false → ∀ p ∈ ps, p.denyAll = false
  ledgers : q.denyAll = false → ListMeet (ps.map ledgerIDs) q.ledgerIDs
  balances : q.denyAll = false → ListMeet (ps.map balanceIDs) q.balanceIDs

theorem MeetOf.restrict {key : String} {ps : List KeyPolicy} {result p : KeyPolicy} (h : MeetOf ps result)
    (hp : RulesValid p.rules) : ∃ q, result.restrict key p = .ok q ∧ MeetOf (ps ++ [p]) q := by
  obtain ⟨q,hq,hvalid,hopen,hledgers,hbalances,hpermits,hfrom⟩ := @restrict_spec key _ _ h.valid hp
  refine ⟨q,hq,hvalid,fun leg => ?_,fun r hr k => ?_,fun r hr => ?_,fun hd => ?_,fun hd => ?_,fun hd => ?_⟩
  · rw [hpermits,h.permits,forall_mem_append,forall_mem_singleton]
  · obtain ⟨a,ha,b,hb,hak,hbk,hlimit⟩ := hfrom r hr
    have hleft := h.least a ha k
    have hright := declared_single hp hb k
    rw [hak] at hleft
    rw [hbk] at hright
    rw [declared_append,hlimit]
    exact hleft.union hright
  · obtain ⟨a,ha,b,hb,hak,hbk,-⟩ := hfrom r hr
    rw [forall_mem_append,forall_mem_singleton]
    exact ⟨fun x hx => hak ▸ h.common a ha x hx,b,hb,hbk⟩
  · rw [forall_mem_append,forall_mem_singleton]
    exact ⟨h.grants (hopen hd).1,(hopen hd).2.1⟩
  · rw [hledgers,map_append]
    exact (h.ledgers (hopen hd).1).intersectIDs (hopen hd).2.2.1
  · rw [hbalances,map_append]
    exact (h.balances (hopen hd).1).intersectIDs (hopen hd).2.2.2

theorem MeetOf.fold {key : String} {ps qs : List KeyPolicy} {result : KeyPolicy} (h : MeetOf ps result)
    (hqs : ∀ p ∈ qs, RulesValid p.rules) : ∃ q, qs.foldlM (KeyPolicy.restrict key) result = .ok q ∧ MeetOf (ps ++ qs) q := by
  induction qs generalizing ps result with
  | nil => exact ⟨result,rfl,(append_nil ps).symm ▸ h⟩
  | cons p qs ih =>
    obtain ⟨mid,hmid,hmeet⟩ := @MeetOf.restrict key _ _ _ h (hqs p mem_cons_self)
    obtain ⟨q,hq,hlast⟩ := ih hmeet fun x hx => hqs x (mem_cons_of_mem _ hx)
    refine ⟨q,?_,?_⟩
    · rw [foldlM_cons,hmid]
      exact hq
    · rwa [append_assoc] at hlast

theorem meetOf_single {key : String} {p : KeyPolicy} (hp : RulesValid p.rules) :
    MeetOf [p] (record key { p with apiKeyID := key, version := 0, inheritedFrom := [] } p) := by
  have hdeny : ∀ d : Bool, (d || d) = d := Bool.or_self
  refine ⟨hp,fun leg => ?_,fun r hr k => declared_single hp hr k,fun r hr => ?_,fun hd => ?_,fun _ => ?_,fun _ => ?_⟩
  · simp [permits,record]
  · rw [forall_mem_singleton]
    exact ⟨r,hr,rfl⟩
  · rw [forall_mem_singleton]
    exact (hdeny p.denyAll).symm.trans hd
  all_goals constructor <;> simp [record]

theorem permits_final {q : KeyPolicy} {leg : PolicyLeg} :
    (if q.rules = [] then { q with denyAll := true } else q).permits leg = q.permits leg := by
  split
  · rename_i hnil
    simp [permits,hnil]
  · rfl

theorem MeetOf.final {ps : List KeyPolicy} {q : KeyPolicy} (h : MeetOf ps q) :
    MeetOf ps (if q.rules = [] then { q with denyAll := true } else q) := by
  have hpermits : ∀ leg, _ := fun leg => (@permits_final q leg).symm ▸ h.permits leg
  split
  · rename_i hnil
    rw [if_pos hnil] at hpermits
    exact ⟨h.valid,hpermits,h.least,h.common,nofun,nofun,nofun⟩
  · exact h

theorem intersect_spec {key : String} {ps : List KeyPolicy} (hps : ∀ p ∈ ps, RulesValid p.rules) (hne : ps ≠ []) :
    ∃ q, intersect key ps = .ok (some q) ∧ MeetOf ps q := by
  cases ps with
  | nil => exact absurd rfl hne
  | cons first rest =>
    have hfirst := hps first mem_cons_self
    obtain ⟨q,hq,hmeet⟩ := @MeetOf.fold key _ _ _ (@meetOf_single key _ hfirst) fun p hp =>
      hps p (mem_cons_of_mem _ hp)
    refine ⟨_,?_,hmeet.final⟩
    rw [intersect,hq]
    rfl

/-- The effective policy of a chain of valid policies permits a leg exactly when every policy does, and each of its
limits is the least one declared. -/
theorem intersect_exact_meet (upper : String → String) (key : String) (ps : List KeyPolicy)
    (hvalid : ∀ p ∈ ps, validate upper p = .ok ()) : ∃ effective, intersect key ps = .ok effective ∧
      (∀ leg, permitted effective leg = true ↔ ∀ p ∈ ps, p.permits leg = true) ∧
      ∀ q ∈ effective, (q.rules.map SpendingRule.key).Nodup ∧
        ∀ r ∈ q.rules, ∀ k, IsLeast (Declared ps r.key k) (limitValue (r.limit k)) := by
  by_cases hne : ps = []
  · subst hne
    refine ⟨none,rfl,fun leg => ?_,fun q hq => by cases hq⟩
    exact ⟨fun _ p hp => absurd hp not_mem_nil,fun _ => rfl⟩
  obtain ⟨q,hq,hmeet⟩ := @intersect_spec key _ (fun p hp => validate_ok (hvalid p hp)) hne
  refine ⟨some q,hq,hmeet.permits,fun x hx => ?_⟩
  cases hx
  exact ⟨hmeet.valid.nodup,hmeet.least⟩

def dollarPolicy (key maxTransaction dailyLimit approvalAbove : String) (balances : List String) : KeyPolicy where
  denyAll := false
  inheritedFrom := []
  apiKeyID := key
  version := 1
  rules := [⟨"USD",Float64.ofInt 100,maxTransaction,dailyLimit,approvalAbove⟩]
  ledgerIDs := ["ledger"]
  balanceIDs := balances

def parentPolicy : KeyPolicy := dollarPolicy "parent" "50" "100" "" ["a","b"]
def childPolicy : KeyPolicy := dollarPolicy "child" "20" "" "10" ["a"]

theorem child_and_parent_meet : (∀ p ∈ [childPolicy,parentPolicy], validate id p = .ok ()) ∧
    ∃ effective, intersect "child" [childPolicy,parentPolicy] = .ok effective ∧
      (∀ leg, permitted effective leg = true ↔ ∀ p ∈ [childPolicy,parentPolicy], p.permits leg = true) ∧
      ∀ q ∈ effective, (q.rules.map SpendingRule.key).Nodup ∧
        ∀ r ∈ q.rules, ∀ k, IsLeast (Declared [childPolicy,parentPolicy] r.key k) (limitValue (r.limit k)) := by
  have hvalid : ∀ p ∈ [childPolicy,parentPolicy], validate id p = .ok () := by decide +kernel
  exact ⟨hvalid,intersect_exact_meet id "child" [childPolicy,parentPolicy] hvalid⟩

end LedgerForge.Policy
