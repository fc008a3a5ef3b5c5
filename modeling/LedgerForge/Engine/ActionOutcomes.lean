import LedgerForge.Engine.LegErrors

/-! # Outcomes of an action on a leg

The action either settles a leg under its own reference, or fails. A failure that is classified as terminal means that
the leg was settled by the action, voided or settled before, or that more was asked for than is left, provided that
nothing else used the reference and queued commits do not reserve what is left.
-/

namespace LedgerForge

open VersionedStore Database InflightAction String

namespace InflightAction

def Settlement (a : InflightAction) (leg : String) (r : Row) : Prop :=
  r.parentTransaction = leg ∧ r.reference = inflightActionReference leg a.action a.actionID ∧
    r.status = if a.action = "void" then .void else .applied
deriving Decidable

/-- The action is over for the hold: the action settled it, it was voided or settled before, or more was asked for
than is left. -/
def Outcome (a : InflightAction) (rows : List Row) (h : Row) : Prop :=
  (∃ r ∈ rows, a.Settlement h.transactionID r) ∨
    (∃ r ∈ rows, r.parentTransaction = h.transactionID ∧ r.status = .void) ∨ h.minor ≤ settledAmount rows h ∨
      (a.action ≠ "void" ∧ remainder rows h < a.amount.getD 0)
deriving Decidable

def Owns (a : InflightAction) (rows : List Row) (leg : String) : Prop :=
  ∀ r ∈ rows, r.reference = inflightActionReference leg a.action a.actionID → a.Settlement leg r
deriving Decidable

/-- The action asks for a part of the hold, or queued commits do not reserve all that is left of it. -/
def Unreserved (a : InflightAction) (rows : List Row) (h : Row) : Prop :=
  a.action = "void" ∨ a.amount.getD 0 ≤ 0 → remainder rows h ≤ 0 → openCommits rows h = 0
deriving Decidable

theorem reference_eq {a : InflightAction} (hid : a.actionID ≠ "") (leg generated : String) :
    a.reference leg generated = inflightActionReference leg a.action a.actionID := by
  have hne : inflightActionReference leg a.action a.actionID ≠ "" := by
    rw [inflightActionReference,if_neg hid]
    intro hempty
    have hchars := congrArg toList hempty
    simp [toList_append] at hchars
  exact if_pos hne

theorem outcome_of_nothing_left {a : InflightAction} {rows : List Row} {h : Row} (hopen : a.Unreserved rows h)
    (hleft : remainder rows h ≤ 0) : a.Outcome rows h := by
  by_cases hall : a.action = "void" ∨ a.amount.getD 0 ≤ 0
  · have hnone := hopen hall hleft
    rw [remainder] at hleft
    exact .inr (.inr (.inl (by omega)))
  · push Not at hall
    exact .inr (.inr (.inr ⟨hall.1,by omega⟩))

end InflightAction

namespace Engine

section Leg

variable {e : Engine} {h : Row} {a : InflightAction} {m : String}

theorem Sound.fetch_error (hs : e.Sound) (hh : h ∈ e.database.transactions) (hold : h.status = .inflight)
    (hf : e.database.fetchAndValidateInflightTransaction h.transactionID = .error m) :
    ∃ r ∈ e.database.transactions, r.parentTransaction = h.transactionID ∧ r.status = .void := by
  obtain ⟨x,hx⟩ := (hs.rows h hh).amount
  have hread := toTransaction_of_inRange (hs.converted hh hold).1 hx ((hs.rows h hh).held hold)
  have hget : e.database.getTransaction h.transactionID = h.toTransaction := by rw [getTransaction,hs.find hh]
  rcases bind_error hf with hf | ⟨t,ht,hf⟩
  · rw [hget,hread] at hf
    cases hf
  rw [hget,hread] at ht
  cases ht
  split_ifs at hf with hinflight hvoid
  · rw [Transaction.isInflightTransaction,Bool.not_eq_true',Bool.or_eq_false_iff,decide_eq_false_iff_not] at hinflight
    exact absurd hold hinflight.1
  obtain ⟨r,hr,hc⟩ := List.any_eq_true.mp hvoid
  rw [Bool.and_eq_true,decide_eq_true_eq,decide_eq_true_eq] at hc
  exact ⟨r,hr,hc⟩

theorem Sound.remaining (hs : e.Sound) (hh : h ∈ e.database.transactions) (hold : h.status = .inflight) {t : Transaction}
    (hf : e.database.fetchAndValidateInflightTransaction h.transactionID = .ok t) :
    e.database.calculateRemainingAmount t = .ok (remainder e.database.transactions h) ∧ t.preciseAmount = h.preciseAmount := by
  obtain ⟨r,hr⟩ := fetchAndValidateInflightTransaction_ok hf
  obtain rfl := hs.journal.eq_of_id hr.mem hh hr.key
  obtain ⟨x,hx⟩ := (hs.rows r hh).amount
  obtain ⟨major,-,-,rfl⟩ := hr.read
  refine ⟨?_,rfl⟩
  rw [hs.bounded.calculateRemainingAmount hh hold hx rfl rfl,hs.remainder_eq hh hold,minor_of_some hx]

/-- A refused amount was more than what is left. -/
theorem Sound.validate_error (hs : e.Sound) (hh : h ∈ e.database.transactions) (hold : h.status = .inflight)
    (hcommit : a.action ≠ "void") (hopen : a.Unreserved e.database.transactions h) {t : Transaction}
    (hf : e.database.fetchAndValidateInflightTransaction h.transactionID = .ok t)
    (hv : e.database.validateAndUpdateAmount t a.amount = .error m) :
    isTerminalInflightError m = false ∨ a.Outcome e.database.transactions h := by
  obtain ⟨hleft,hamount⟩ := hs.remaining hh hold hf
  rcases bind_error hv with hv | ⟨left,hl,hv⟩
  · rw [hleft] at hv
    cases hv
  cases hleft.symm.trans hl
  have hconsumed := consumed_nonneg hs.bounded hh hold (by rw [hs.journal.inflight_action hh (.inl hold)]; decide)
  have hle : remainder e.database.transactions h ≤ h.minor := by
    rw [hs.remainder_eq hh hold]
    omega
  have hrefused : ∀ x, a.amount = some x → remainder e.database.transactions h < x →
      a.Outcome e.database.transactions h :=
    fun x hx hlt => .inr (.inr (.inr ⟨hcommit,by rw [hx]; exact hlt⟩))
  split at hv
  · rename_i hnone
    exact .inr (outcome_of_nothing_left hopen hnone)
  rcases bind_error hv with hv | ⟨requested,-,hv⟩
  · cases hrequest : a.amount with
    | none =>
      rw [hrequest] at hv
      cases hv
      exact .inl (not_terminal_of_literal toList_ofList (by decide))
    | some x =>
      rw [hrequest] at hv
      unfold validateRequestedAmount at hv
      simp only at hv
      split_ifs at hv with hneg hzero hmore hless
      · cases hv
        exact .inl (not_terminal_of_literal toList_ofList (by decide))
      · rw [hamount] at hmore
        exact .inr (hrefused x hrequest (lt_of_le_of_lt hle hmore))
      · exact .inr (hrefused x hrequest hless)
  · cases hv

variable {queuedDebit : Option ℤ}

theorem Sound.record_error (hs : e.Sound) (hb : e.database.Generated) (hh : h ∈ e.database.transactions)
    (hold : h.status = .inflight) (howns : a.Owns e.database.transactions h.transactionID) {u : Transaction} {x : ℤ} (hstatus : u.status = .commit ∨ u.status = .void)
    (href : u.reference = inflightActionReference h.transactionID a.action a.actionID)
    (hparent : u.parentTransaction = h.transactionID) (hx : u.preciseAmount = some x)
    (hle : x ≤ remainder e.database.transactions h)
    (hr : e.database.recordTransactionSingle u false queuedDebit = .error m) :
    isTerminalInflightError m = false ∨ a.Outcome e.database.transactions h := by
  cases hexists : e.database.referenceExists u.reference with
  | true =>
    obtain ⟨r,hmem,hreference⟩ := List.any_eq_true.mp hexists
    exact .inr (.inl ⟨r,hmem,howns r hmem ((of_decide_eq_true hreference).trans href)⟩)
  | false =>
    rcases recordTransactionSingle_error hb hexists hstatus hr with hm | ⟨r,hrp,hra,k,hk,hkid,-,hwithin⟩
    · exact .inl hm
    obtain rfl := hs.journal.eq_of_id hk hh (hkid.trans (hrp.trans hparent))
    obtain ⟨y,hy⟩ := (hs.rows k hh).amount
    rw [withinRemaining,hy] at hwithin
    simp only [hra x hx,Option.getD_some,decide_eq_false_iff_not,not_le] at hwithin
    rw [hs.remainder_eq hh hold,minor_of_some hy] at hle
    omega

theorem Sound.commit_leg (hs : e.Sound) (hb : e.database.Generated) (hh : h ∈ e.database.transactions)
    (hold : h.status = .inflight) (hcommit : a.action ≠ "void") (howns : a.Owns e.database.transactions h.transactionID)
    (hopen : a.Unreserved e.database.transactions h) {newID : String}
    (hc : e.database.commitInflightTransaction h.transactionID a.amount newID
      (inflightActionReference h.transactionID a.action a.actionID) queuedDebit = .error m) :
    isTerminalInflightError m = false ∨ a.Outcome e.database.transactions h := by
  rcases bind_error hc with hc | ⟨t,ht,hc⟩
  · exact .inr (.inr (.inl (hs.fetch_error hh hold hc)))
  rcases bind_error hc with hc | ⟨t',ht',hc⟩
  · exact hs.validate_error hh hold hcommit hopen ht hc
  obtain ⟨r,hf⟩ := fetchAndValidateInflightTransaction_ok ht
  obtain rfl := hs.journal.eq_of_id hf.mem hh hf.key
  obtain ⟨left,x,major,hleft,-,hle,rfl⟩ := validateAndUpdateAmount_ok ht'
  cases (hs.remaining hh hold ht).1.symm.trans hleft
  obtain ⟨_,-,-,rfl⟩ := hf.read
  exact hs.record_error hb hh hold howns (.inl rfl) rfl rfl rfl hle hc

theorem Sound.void_leg (hs : e.Sound) (hb : e.database.Generated) (hh : h ∈ e.database.transactions)
    (hold : h.status = .inflight) (howns : a.Owns e.database.transactions h.transactionID)
    (hopen : a.Unreserved e.database.transactions h) {newID : String}
    (hc : e.database.voidInflightTransaction h.transactionID newID
      (inflightActionReference h.transactionID a.action a.actionID) queuedDebit = .error m) :
    isTerminalInflightError m = false ∨ a.Outcome e.database.transactions h := by
  rcases bind_error hc with hc | ⟨t,ht,hc⟩
  · exact .inr (.inr (.inl (hs.fetch_error hh hold hc)))
  have hremaining := (hs.remaining hh hold ht).1
  rcases bind_error hc with hc | ⟨left,hleft,hc⟩
  · rw [hremaining] at hc
    cases hc
  cases hremaining.symm.trans hleft
  split at hc
  · rename_i hnone
    exact .inr (outcome_of_nothing_left hopen hnone)
  rename_i hpos
  obtain ⟨r,hf⟩ := fetchAndValidateInflightTransaction_ok ht
  obtain rfl := hs.journal.eq_of_id hf.mem hh hf.key
  obtain ⟨major,-,-,rfl⟩ := hf.read
  set u := voiding (r.asTransaction (Float64.ofRat major) "" false) (remainder e.database.transactions r) newID
    (inflightActionReference r.transactionID a.action a.actionID) with hu
  obtain ⟨amount,text,minor,precision,hframe⟩ := u.applyPrecision_frame
  have hamount : u.applyPrecision.2.preciseAmount = some (remainder e.database.transactions r) := by
    rcases applyPrecision_positive (t := u) rfl (not_le.mp hpos) with hm | hm
    · exact hm.1.preciseAmount
    · rw [hm]
      rfl
  refine hs.record_error hb hh hold howns (.inr ?_) ?_ ?_ hamount le_rfl hc <;> rw [hframe] <;> rfl

end Leg

section Operation

variable {e e' : Engine} {a : InflightAction} {leg generated newID : String} {queuedDebit : Option ℤ}

theorem withDatabase_error {r : Except String Database} {m : String} (h : e.withDatabase r = .error m) : r = .error m := by
  cases r with
  | ok db => cases h
  | error m' => exact congrArg Except.error (Except.error.inj h)

theorem Sound.leg_appended (hs : e.Sound) (hid : a.actionID ≠ "")
    (ha : e.admissible (a.applyToLeg leg generated newID queuedDebit) = true)
    (hp : e.perform (a.applyToLeg leg generated newID queuedDebit) = .ok e') :
    ∃ r, Appended e e' [r] ∧ a.Settlement leg r := by
  rw [admissible,Bool.and_eq_true] at ha
  have hfresh := (freshIDs_spec ha.1).2
  unfold applyToLeg at hp hfresh
  rw [reference_eq hid] at hp hfresh
  split_ifs at hp hfresh with hvoid
  · obtain ⟨db',hdb,rfl⟩ := withDatabase_ok hp
    obtain ⟨r,happended,hsettling,hstatus,-⟩ := void_appended hs (hfresh newID List.mem_cons_self) hdb
    exact ⟨r,happended,hsettling.parent,hsettling.reference,by rw [if_pos hvoid,hstatus]⟩
  · obtain ⟨db',hdb,rfl⟩ := withDatabase_ok hp
    obtain ⟨r,happended,hsettling,hstatus,-⟩ := commit_appended hs (hfresh newID List.mem_cons_self) hdb
    exact ⟨r,happended,hsettling.parent,hsettling.reference,by rw [if_neg hvoid,hstatus]⟩

theorem Sound.leg_error {h : Row} {m : String} (hs : e.Sound) (hb : e.database.Generated)
    (hh : h ∈ e.database.transactions) (hold : h.status = .inflight) (hid : a.actionID ≠ "")
    (howns : a.Owns e.database.transactions h.transactionID) (hopen : a.Unreserved e.database.transactions h)
    (hp : e.perform (a.applyToLeg h.transactionID generated newID queuedDebit) = .error m) :
    isTerminalInflightError m = false ∨ a.Outcome e.database.transactions h := by
  unfold applyToLeg at hp
  rw [reference_eq hid] at hp
  split_ifs at hp with hvoid
  · exact hs.void_leg hb hh hold howns hopen (withDatabase_error hp)
  · exact hs.commit_leg hb hh hold hvoid howns hopen (withDatabase_error hp)

end Operation

theorem Appended.generated {e e' : Engine} {rs : List Row} (h : Appended e e' rs) (hb : e.database.Generated) :
    e'.database.Generated := by
  intro c hc
  have hkey : c.key ∈ e.database.balances.map Cell.key := h.posted.keys ▸ List.mem_map_of_mem hc
  obtain ⟨d,hd,he⟩ := List.mem_map.mp hkey
  exact he ▸ hb d hd

theorem generated_step {e : Engine} {op : Operation} (hs : e.Sound) (hb : e.database.Generated)
    (hop : op.generates = true) : (e.step op).database.Generated := by
  rw [step]
  split
  · rename_i ha
    split
    · rename_i e' hp
      by_cases hc : ∃ id currency, op = .createBalance id currency
      · obtain ⟨id,currency,rfl⟩ := hc
        cases hp
        intro c hmem
        unfold createBalance at hmem
        split at hmem
        · exact hb c hmem
        rcases List.mem_append.mp hmem with hmem | hmem
        · exact hb c hmem
        · rw [List.mem_singleton.mp hmem]
          exact hop
      · obtain ⟨rs,happended,-⟩ := perform_appended hs ha (fun id currency he => hc ⟨id,currency,he⟩) hp
        exact happended.generated hb
    · exact hb
  · exact hb

end Engine
end LedgerForge
