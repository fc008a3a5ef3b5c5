import LedgerForge.Engine.Executors

/-! # Refund requests racing for an original

Any number of refund requests check and insert at the same time, next to workers and recovery. A check may be answered
long before its insert; the trigger and the unique references still let only one reversal of an original in.
-/

namespace LedgerForge.Executors

open Engine List Cluster

inductive RefundAction
  | cluster (action : Action)
  | refund (refunded : Transaction → Bool) (id : String) (skipQueue : Bool) (newID copyID : String) (queuedDebit : Option ℤ)

namespace Cluster

abbrev rows (s : Cluster) : List Row := s.engine.database.transactions

def stepRefund (s : Cluster) : RefundAction → Cluster
  | .cluster action => s.step action
  | .refund refunded id skipQueue newID copyID queuedDebit =>
    if s.engine.freshIDs [newID,copyID] then
      match s.engine.refundAnswered refunded id skipQueue newID copyID queuedDebit with
      | .ok e => { s with engine := e }
      | .error _ => s
    else s

def runRefunds (actions : List RefundAction) : Cluster := actions.foldl stepRefund empty

end Cluster

/-- A row as a refund of another row stores it: an intent, or executed at once. -/
def IsReversal (o r : Row) : Prop :=
  r.parentTransaction = o.transactionID ∧ r.reference = o.transactionID ++ "_refund" ∧ r.queueAction = .unset ∧
    (r.IsIntent ∨ r.status = .applied)
deriving Decidable

def reversals (rows : List Row) (o : Row) : List Row := rows.filter fun r => IsReversal o r

/-- The applied rows among the reversals and the executions of those that are intents. -/
def appliedReversals (rows : List Row) (o : Row) : List Row :=
  rows.filter fun r => r.status = .applied ∧
    (IsReversal o r ∨ ∃ i ∈ reversals rows o, i.IsIntent ∧ r.parentTransaction = i.transactionID)

variable {rows : List Row} {o r r' : Row}

theorem mem_reversals : r ∈ reversals rows o ↔ r ∈ rows ∧ IsReversal o r := by
  rw [reversals,mem_filter,decide_eq_true_eq]

theorem reversal_unique (hj : Journal rows) (h : r ∈ reversals rows o) (h' : r' ∈ reversals rows o) : r = r' := by
  obtain ⟨hr,-,hreference,-⟩ := mem_reversals.mp h
  obtain ⟨hr',-,hreference',-⟩ := mem_reversals.mp h'
  exact hj.eq_of_reference hr hr' (hreference.trans hreference'.symm)

theorem reverses_of_reversal (hj : Journal rows) (ho : o ∈ rows) (h : r ∈ reversals rows o) :
    o.status = .applied ∧ Reverses r o := by
  obtain ⟨hr,hparent,hreference,haction,hstatus⟩ := mem_reversals.mp h
  have hvoid : r.status ≠ .void := by
    intro hv
    rcases hstatus with (hs | hs) | hs <;> rw [hv] at hs <;> cases hs
  cases hj.child ho hr hparent with
  | ofApplied applied child => exact ⟨applied,child⟩
  | ofIntent _ child =>
    cases child with
    | execution _ _ _ _ reference => exact absurd (reference.symm.trans hreference) (queue_ne_refund _ _)
    | rejection _ reference => exact absurd (reference.symm.trans hreference) (queue_ne_refund _ _)
    | completion _ _ _ _ reference => exact absurd (reference.symm.trans hreference) (queue_ne_refund _ _)
    | void _ status => exact absurd status hvoid
  | ofHold _ child =>
    rcases child.status with hv | ⟨-,hcommit⟩
    · exact absurd hv hvoid
    · cases hcommit.symm.trans haction

theorem reversals_length (hj : Journal rows) : (reversals rows o).length ≤ 1 :=
  Keyed.length_le_one (hj.ids_nodup.of_map.filter _) fun _ h _ h' => reversal_unique hj h h'

theorem appliedReversals_length (hj : Journal rows) : (appliedReversals rows o).length ≤ 1 := by
  have happlied : ∀ {x : Row}, x.IsIntent → x.status ≠ .applied := by
    rintro x (hs | hs) ha <;> rw [hs] at ha <;> cases ha
  have hfrom : ∀ x ∈ appliedReversals rows o, x ∈ rows ∧ x.status = .applied ∧
      ∃ i ∈ reversals rows o, x = i ∨ i.IsIntent ∧ x.parentTransaction = i.transactionID := by
    intro x hx
    obtain ⟨hx,hcond⟩ := mem_filter.mp hx
    obtain ⟨hs,hr | ⟨i,hi,hintent⟩⟩ := of_decide_eq_true hcond
    · exact ⟨hx,hs,x,mem_reversals.mpr ⟨hx,hr⟩,.inl rfl⟩
    · exact ⟨hx,hs,i,hi,.inr hintent⟩
  refine Keyed.length_le_one (hj.ids_nodup.of_map.filter _) fun r hr r' hr' => ?_
  obtain ⟨hr,hs,i,hi,hcase⟩ := hfrom r hr
  obtain ⟨hr',hs',i',hi',hcase'⟩ := hfrom r' hr'
  obtain rfl := reversal_unique hj hi hi'
  rcases hcase with rfl | ⟨hintent,hp⟩ <;> rcases hcase' with rfl | ⟨hintent',hp'⟩
  · rfl
  · exact absurd hs (happlied hintent')
  · exact absurd hs' (happlied hintent)
  · exact hj.terminal_unique (mem_reversals.mp hi).1 hintent hr hp (.inl hs) hr' hp' (.inl hs')

theorem RefundRow.isReversal {skipQueue : Bool} {newID : String} (h : RefundRow o skipQueue newID r) : IsReversal o r := by
  refine ⟨h.parent,h.reference,h.action,?_⟩
  have hstatus := h.status
  split at hstatus
  · exact .inr hstatus
  · exact .inl hstatus

namespace Cluster

/-- A refund changes nothing, or stores one reversal of the row it names. -/
theorem refund_cases {s : Cluster} (h : s.Sound) (refunded : Transaction → Bool) (id : String) (skipQueue : Bool)
    (newID copyID : String) (queuedDebit : Option ℤ) :
    s.stepRefund (.refund refunded id skipQueue newID copyID queuedDebit) = s ∨ ∃ e o r, o ∈ s.rows ∧ o.transactionID = id ∧
      Appended s.engine e [r] ∧ IsReversal o r ∧
      s.stepRefund (.refund refunded id skipQueue newID copyID queuedDebit) = { s with engine := e } := by
  rw [stepRefund]
  split
  · rename_i hids
    split
    · rename_i e he
      obtain ⟨o,ho,hid,-,r,happended,hrow⟩ := refund_appended h.engine hids he
      exact .inr ⟨e,o,r,ho,hid,happended,RefundRow.isReversal hrow,rfl⟩
    · exact .inl rfl
  · exact .inl rfl

theorem Sound.stepRefund {s : Cluster} (h : s.Sound) (action : RefundAction) : (s.stepRefund action).Sound := by
  cases action with
  | cluster action => exact h.step action
  | refund refunded id skipQueue newID copyID queuedDebit =>
    rcases refund_cases h refunded id skipQueue newID copyID queuedDebit with hsame | ⟨e,o,r,-,-,happended,-,hstep⟩
    · rw [hsame]
      exact h
    · rw [hstep]
      exact h.grown happended

end Cluster

/-- However refunds race, an original has at most one reversal, which is of an applied row and exchanges its sides, and at most
one applied row comes of it. Every accepted refund is such a reversal. -/
theorem refunded_once (actions : List RefundAction) :
    (∀ o ∈ (runRefunds actions).rows, (reversals (runRefunds actions).rows o).length ≤ 1 ∧
      (∀ r ∈ reversals (runRefunds actions).rows o, o.status = .applied ∧ r.source = o.destination ∧
        r.destination = o.source ∧ r.preciseAmount = o.preciseAmount) ∧
      (appliedReversals (runRefunds actions).rows o).length ≤ 1) ∧
    ∀ refunded id skipQueue newID copyID queuedDebit,
      runRefunds (actions ++ [.refund refunded id skipQueue newID copyID queuedDebit]) = runRefunds actions ∨
      ∃ o ∈ (runRefunds actions).rows, o.transactionID = id ∧ ∃ r, IsReversal o r ∧
        (runRefunds (actions ++ [.refund refunded id skipQueue newID copyID queuedDebit])).rows =
          (runRefunds actions).rows ++ [r] := by
  have hsound : (runRefunds actions).Sound :=
    EventRuns.invariant Cluster.Sound empty_sound (fun _ action h => h.stepRefund action) actions
  have hj := hsound.engine.journal
  refine ⟨fun o ho => ⟨reversals_length hj,fun r hr => ?_,appliedReversals_length hj⟩,fun refunded id skipQueue newID copyID q => ?_⟩
  · obtain ⟨happlied,hreverses⟩ := reverses_of_reversal hj ho hr
    have hlegs := hreverses.legs
    simp only [reversesLegs,Bool.and_eq_true,decide_eq_true_eq] at hlegs
    exact ⟨happlied,hlegs.1.1,hlegs.1.2,hlegs.2⟩
  · rw [runRefunds,foldl_concat]
    rcases refund_cases hsound refunded id skipQueue newID copyID q with hsame | ⟨e,o,r,ho,hid,happended,hr,hstep⟩
    · exact .inl hsame
    refine .inr ⟨o,ho,hid,r,hr,?_⟩
    rw [← runRefunds,hstep]
    exact happended.posted.transactions

end LedgerForge.Executors
