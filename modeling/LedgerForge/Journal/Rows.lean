import LedgerForge.Storage.Statements

/-! # The journal

The abstract meaning of a row list: every row is a request, carries out or rejects an intent, settles
or queues the settlement of a hold, or reverses an applied row. A journal is a list in which every row
arose in one of these ways from the rows before it.
-/

namespace LedgerForge

open List Row

namespace Row

def IsIntent (r : Row) : Prop := r.status = .queued ∨ r.status = .scheduled
deriving Decidable

def IsQueuedCommit (r : Row) : Prop := r.status = .queued ∧ r.queueAction = .commit
deriving Decidable

def IsSettled (r : Row) : Prop := r.status = .applied ∨ r.status = .void
deriving Decidable

def minor (r : Row) : ℤ := r.preciseAmount.getD 0

/-- Two rows with the same endpoints, currency, precision and amount. -/
structure Repeats (r i : Row) : Prop where
  source : r.source = i.source
  destination : r.destination = i.destination
  currency : r.currency = i.currency
  precision : r.precision = i.precision
  preciseAmount : r.preciseAmount = i.preciseAmount

/-- The row is a child of a row, not a member of a group. -/
structure ChildOf (r p : Row) : Prop where
  parent : r.parentTransaction = p.transactionID
  kind : r.controls.parentKind ≠ .group

end Row

section Movement

variable {r : Row}

theorem movement_of_intent (h : r.IsIntent) : r.movement = none := by
  rcases h with h | h <;> rw [movement,h]

theorem movement_of_committed (h : r.status = .applied) (ha : r.queueAction = .commit) : r.movement = some .commit := by
  rw [movement,h,ha]
  rfl

theorem movement_of_hold (h : r.status = .inflight) : r.movement = some .hold := by rw [movement,h]

theorem movement_of_void (h : r.status = .void) : r.movement = some .void := by rw [movement,h]

theorem movement_of_rejected (h : r.status = .rejected) : r.movement = none := by rw [movement,h]

end Movement

/-- The identifiers of the row are new and nothing refers to it yet. -/
structure Unused (rows : List Row) (r : Row) : Prop where
  nonempty : r.transactionID ≠ ""
  id : ∀ x ∈ rows, x.transactionID ≠ r.transactionID
  reference : ∀ x ∈ rows, x.reference ≠ r.reference
  parent : ∀ x ∈ rows, x.parentTransaction ≠ r.transactionID
  queuedParent : ∀ x ∈ rows, x.controls.queuedParent ≠ r.transactionID
  own : r.parentTransaction ≠ r.transactionID

/-- How a row arises from the rows before it. -/
inductive Origin (rows : List Row) (r : Row) : Prop
  | request (parent : r.parentTransaction = "" ∨
        r.controls.parentKind = .group ∧ ∀ x ∈ rows, x.transactionID ≠ r.parentTransaction)
      (status : r.IsIntent ∨ r.status = .applied ∨ r.status = .inflight) (action : r.queueAction = .unset)
      (link : r.controls.queuedParent = r.transactionID ∨ ∀ x ∈ rows, x.transactionID ≠ r.controls.queuedParent)
  | execution (i : Row) (mem : i ∈ rows) (child : r.ChildOf i) (intent : i.IsIntent) (plain : i.queueAction = .unset)
      (status : r.status = if i.controls.inflight then .inflight else .applied) (action : r.queueAction = .unset)
      (repeats : r.Repeats i) (reference : r.reference = i.reference ++ "_q")
      (queuedParent : r.controls.queuedParent = i.controls.queuedParent)
  | rejection (i : Row) (mem : i ∈ rows) (child : r.ChildOf i) (intent : i.IsIntent) (status : r.status = .rejected)
      (reference : r.reference = i.reference ++ "_q") (queuedParent : r.controls.queuedParent = i.controls.queuedParent)
      (inflight : i.queueAction = .unset → r.controls.inflight = i.controls.inflight)
  | settlement (h : Row) (mem : h ∈ rows) (child : r.ChildOf h) (hold : h.status = .inflight)
      (status : r.status = .void ∨ (r.status = .applied ∨ r.status = .queued) ∧ r.queueAction = .commit)
      (positive : 0 < r.minor) (terms : sameTerms r h = true) (bound : withinRemaining rows r h = true)
      (inflight : r.controls.inflight = false) (whole : r.status = .void → consumed rows h.transactionID+r.minor = h.minor)
  | completion (q : Row) (mem : q ∈ rows) (child : r.ChildOf q) (queued : q.IsQueuedCommit) (status : r.status = .applied)
      (action : r.queueAction = .commit) (repeats : r.Repeats q) (reference : r.reference = q.reference ++ "_q")
      (only : ∀ x ∈ rows, x.parentTransaction ≠ q.transactionID)
      (queuedParent : r.controls.queuedParent = q.controls.queuedParent)
  | reversal (o : Row) (mem : o ∈ rows) (child : r.ChildOf o) (applied : o.status = .applied)
      (status : r.IsIntent ∨ r.status = .applied) (action : r.queueAction = .unset)
      (inflight : r.controls.inflight = false) (reverses : reversesLegs r o = true) (currency : r.currency = o.currency)
      (precision : r.precision = o.precision) (reference : r.reference = o.transactionID ++ "_refund")
      (link : r.IsIntent ∧ r.controls.queuedParent = r.transactionID ∨
        r.status = .applied ∧ r.controls.queuedParent = o.controls.queuedParent)
  | intentVoid (i : Row) (mem : i ∈ rows) (child : r.ChildOf i) (queued : i.status = .queued)
      (status : r.status = .void)

theorem Origin.void {rows : List Row} {r : Row} (h : Origin rows r) (hv : r.status = .void) :
    (∃ p ∈ rows, r.ChildOf p ∧ p.status = .inflight ∧ sameTerms r p = true ∧
      consumed rows p.transactionID+r.minor = p.minor) ∨ ∃ i ∈ rows, r.ChildOf i ∧ i.status = .queued := by
  cases h with
  | settlement p mem child hold _ _ terms _ _ whole => exact .inl ⟨p,mem,child,hold,terms,whole hv⟩
  | intentVoid i mem child queued => exact .inr ⟨i,mem,child,queued⟩
  | request _ status => rcases status with (hs | hs) | hs | hs <;> rw [hv] at hs <;> cases hs
  | execution _ _ _ _ _ status => split at status <;> rw [hv] at status <;> cases status
  | rejection _ _ _ _ status => rw [hv] at status; cases status
  | completion _ _ _ _ status => rw [hv] at status; cases status
  | reversal _ _ _ _ status => rcases status with (hs | hs) | hs <;> rw [hv] at hs <;> cases hs

/-- Rows in the order they were stored, each with its origin. -/
inductive Journal : List Row → Prop
  | nil : Journal []
  | snoc {rows : List Row} {r : Row} (rest : Journal rows) (unused : Unused rows r) (origin : Origin rows r) :
      Journal (rows ++ [r])

namespace Journal

variable {rows : List Row} {r : Row}

theorem origin (h : Journal rows) (hr : r ∈ rows) :
    ∃ pre post, rows = pre ++ r :: post ∧ Journal pre ∧ Unused pre r ∧ Origin pre r := by
  induction h with
  | nil => exact absurd hr not_mem_nil
  | @snoc rows r' rest unused origin ih =>
    rcases mem_append.mp hr with hr | hr
    · obtain ⟨pre,post,rfl,hpre⟩ := ih hr
      exact ⟨pre,post ++ [r'],by simp,hpre⟩
    · obtain rfl := mem_singleton.mp hr
      exact ⟨rows,[],rfl,rest,unused,origin⟩

theorem ids_nodup (h : Journal rows) : (rows.map transactionID).Nodup := by
  induction h with
  | nil => exact nodup_nil
  | snoc _ unused _ ih =>
    rw [map_append,map_singleton,nodup_append_comm,singleton_append,nodup_cons]
    exact ⟨fun hmem => by obtain ⟨x,hx,he⟩ := mem_map.mp hmem; exact unused.id x hx he,ih⟩

theorem references_nodup (h : Journal rows) : (rows.map reference).Nodup := by
  induction h with
  | nil => exact nodup_nil
  | snoc _ unused _ ih =>
    rw [map_append,map_singleton,nodup_append_comm,singleton_append,nodup_cons]
    exact ⟨fun hmem => by obtain ⟨x,hx,he⟩ := mem_map.mp hmem; exact unused.reference x hx he,ih⟩

theorem eq_of_id (h : Journal rows) {x y : Row} (hx : x ∈ rows) (hy : y ∈ rows)
    (he : x.transactionID = y.transactionID) : x = y := inj_on_of_nodup_map h.ids_nodup hx hy he

theorem eq_of_reference (h : Journal rows) {x y : Row} (hx : x ∈ rows) (hy : y ∈ rows)
    (he : x.reference = y.reference) : x = y := inj_on_of_nodup_map h.references_nodup hx hy he

theorem id_ne_empty (h : Journal rows) (hr : r ∈ rows) : r.transactionID ≠ "" := by
  obtain ⟨_,_,_,_,hunused,_⟩ := h.origin hr
  exact hunused.nonempty

theorem intent_action (h : Journal rows) {i : Row} (hi : i ∈ rows) (hintent : i.IsIntent) :
    i.queueAction = .unset ∨ i.IsQueuedCommit := by
  obtain ⟨_,_,_,_,_,horigin⟩ := h.origin hi
  cases horigin with
  | request _ _ action => exact .inl action
  | execution _ _ _ _ _ status =>
    split at status <;> rcases hintent with hs | hs <;> rw [hs] at status <;> cases status
  | rejection _ _ _ _ status => rcases hintent with hs | hs <;> rw [hs] at status <;> cases status
  | settlement _ _ _ _ status =>
    rcases status with hv | ⟨hv | hv,ha⟩
    · rcases hintent with hs | hs <;> rw [hs] at hv <;> cases hv
    · rcases hintent with hs | hs <;> rw [hs] at hv <;> cases hv
    · exact .inr ⟨hv,ha⟩
  | completion _ _ _ _ status => rcases hintent with hs | hs <;> rw [hs] at status <;> cases status
  | reversal _ _ _ _ _ action => exact .inl action
  | intentVoid _ _ _ _ status => rcases hintent with hs | hs <;> rw [hs] at status <;> cases status

theorem inflight_action (h : Journal rows) (hr : r ∈ rows)
    (hi : r.status = .inflight ∨ r.status = .queued ∧ r.controls.inflight = true) : r.queueAction = .unset := by
  obtain ⟨_,_,_,_,_,horigin⟩ := h.origin hr
  cases horigin with
  | request _ _ action => exact action
  | execution _ _ _ _ _ _ action => exact action
  | rejection _ _ _ _ status => rcases hi with hs | ⟨hs,-⟩ <;> rw [hs] at status <;> cases status
  | settlement _ _ _ _ status _ _ _ inflight =>
    rcases hi with hs | ⟨-,hflag⟩
    · rw [hs] at status
      rcases status with hv | ⟨hv | hv,-⟩ <;> cases hv
    · rw [inflight] at hflag
      cases hflag
  | completion _ _ _ _ status => rcases hi with hs | ⟨hs,-⟩ <;> rw [hs] at status <;> cases status
  | reversal _ _ _ _ _ action => exact action
  | intentVoid _ _ _ _ status => rcases hi with hs | ⟨hs,-⟩ <;> rw [hs] at status <;> cases status

end Journal
end LedgerForge
