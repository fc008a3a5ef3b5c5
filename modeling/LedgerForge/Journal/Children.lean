import LedgerForge.Journal.Rows

/-! # Children in a journal

A row is stored before every row that names it as its parent. What its children look like follows from the
origin of each of them.
-/

namespace LedgerForge

open List

/-- What a child of an intent is. -/
inductive IntentChild (i r : Row) : Prop
  | execution (plain : i.queueAction = .unset) (status : r.status = if i.controls.inflight then .inflight else .applied)
      (action : r.queueAction = .unset) (repeats : r.Repeats i) (reference : r.reference = i.reference ++ "_q")
      (queuedParent : r.controls.queuedParent = i.controls.queuedParent)
  | rejection (status : r.status = .rejected) (reference : r.reference = i.reference ++ "_q")
      (queuedParent : r.controls.queuedParent = i.controls.queuedParent)
      (inflight : i.queueAction = .unset → r.controls.inflight = i.controls.inflight)
  | completion (queued : i.IsQueuedCommit) (status : r.status = .applied) (action : r.queueAction = .commit)
      (repeats : r.Repeats i) (reference : r.reference = i.reference ++ "_q")
      (queuedParent : r.controls.queuedParent = i.controls.queuedParent)
  | void (queued : i.status = .queued) (status : r.status = .void)

/-- What a child of an applied row is. -/
structure Reverses (r o : Row) : Prop where
  status : r.IsIntent ∨ r.status = .applied
  action : r.queueAction = .unset
  inflight : r.controls.inflight = false
  legs : reversesLegs r o = true
  reference : r.reference = o.transactionID ++ "_refund"

/-- What a child of a hold is. -/
structure SettlesHold (r h : Row) : Prop where
  status : r.status = .void ∨ (r.status = .applied ∨ r.status = .queued) ∧ r.queueAction = .commit
  positive : 0 < r.minor
  terms : sameTerms r h = true

/-- What a child is, by what its parent is. -/
inductive Child (p r : Row) : Prop
  | ofIntent (intent : p.IsIntent) (child : IntentChild p r)
  | ofApplied (applied : p.status = .applied) (child : Reverses r p)
  | ofHold (hold : p.status = .inflight) (child : SettlesHold r p)

theorem queue_ne_refund (s t : String) : s ++ "_q" ≠ t ++ "_refund" := by
  intro h
  have hlast := congrArg (fun x : String => x.toList.getLast?) h
  simp [String.toList_append] at hlast

def Row.IsTerminal (r : Row) : Prop := r.status = .applied ∨ r.status = .inflight ∨ r.status = .rejected
deriving Decidable

theorem IntentChild.reference_of_terminal {i r : Row} (h : IntentChild i r) (ht : r.IsTerminal) :
    r.reference = i.reference ++ "_q" := by
  cases h with
  | execution _ _ _ _ reference => exact reference
  | rejection _ reference => exact reference
  | completion _ _ _ _ reference => exact reference
  | void _ status => rcases ht with hs | hs | hs <;> rw [status] at hs <;> cases hs

namespace Journal

variable {rows : List Row} {i r : Row}

theorem parent_before (h : Journal rows) (hi : i ∈ rows) (hr : r ∈ rows)
    (hp : r.parentTransaction = i.transactionID) :
    ∃ pre post, rows = pre ++ r :: post ∧ i ∈ pre ∧ Journal pre ∧ Unused pre r ∧ Origin pre r := by
  induction h with
  | nil => exact absurd hi not_mem_nil
  | @snoc rows last rest unused origin ih =>
    rcases mem_append.mp hr with hrold | hrnew
    · rcases mem_append.mp hi with hiold | hinew
      · obtain ⟨pre,post,rfl,hpre⟩ := ih hiold hrold
        exact ⟨pre,post ++ [last],by simp,hpre⟩
      · obtain rfl := mem_singleton.mp hinew
        exact absurd hp (unused.parent r hrold)
    · obtain rfl := mem_singleton.mp hrnew
      rcases mem_append.mp hi with hiold | hinew
      · exact ⟨rows,[],rfl,hiold,rest,unused,origin⟩
      · obtain rfl := mem_singleton.mp hinew
        exact absurd hp unused.own

/-- What a child is depends on its parent. -/
theorem child (h : Journal rows) {p : Row} (hp : p ∈ rows) (hr : r ∈ rows)
    (hparent : r.parentTransaction = p.transactionID) : Child p r := by
  obtain ⟨pre,post,rfl,hpre,hjournal,-,horigin⟩ := h.parent_before hp hr hparent
  -- the parent an origin names is this one, since identifiers are unique
  have hsame : ∀ {x : Row}, x ∈ pre → r.ChildOf x → x = p := fun hx hc =>
    hjournal.eq_of_id hx hpre (hc.parent.symm.trans hparent)
  cases horigin with
  | request parent =>
    rcases parent with hempty | ⟨-,hgroup⟩
    · exact absurd (hparent.symm.trans hempty) (hjournal.id_ne_empty hpre)
    · exact absurd hparent.symm (hgroup p hpre)
  | execution x hx child intent plain status action repeats reference queuedParent =>
    obtain rfl := hsame hx child
    exact .ofIntent intent (.execution plain status action repeats reference queuedParent)
  | rejection x hx child intent status reference queuedParent inflight =>
    obtain rfl := hsame hx child
    exact .ofIntent intent (.rejection status reference queuedParent inflight)
  | settlement x hx child hold status positive terms =>
    obtain rfl := hsame hx child
    exact .ofHold hold ⟨status,positive,terms⟩
  | completion x hx child queued status action repeats reference _ queuedParent =>
    obtain rfl := hsame hx child
    exact .ofIntent (.inl queued.1) (.completion queued status action repeats reference queuedParent)
  | reversal x hx child applied status action inflight reverses _ _ reference =>
    obtain rfl := hsame hx child
    exact .ofApplied applied ⟨status,action,inflight,reverses,reference⟩
  | intentVoid x hx child queued status =>
    obtain rfl := hsame hx child
    exact .ofIntent (.inl queued) (.void queued status)

section Child

variable {p : Row}

theorem intentChild (h : Journal rows) (hp : p ∈ rows) (hintent : p.IsIntent) (hr : r ∈ rows)
    (hparent : r.parentTransaction = p.transactionID) : IntentChild p r := by
  cases h.child hp hr hparent with
  | ofIntent _ child => exact child
  | ofApplied applied => rcases hintent with hs | hs <;> rw [applied] at hs <;> cases hs
  | ofHold hold => rcases hintent with hs | hs <;> rw [hold] at hs <;> cases hs

theorem appliedChild (h : Journal rows) (hp : p ∈ rows) (happlied : p.status = .applied) (hr : r ∈ rows)
    (hparent : r.parentTransaction = p.transactionID) : Reverses r p := by
  cases h.child hp hr hparent with
  | ofIntent intent => rcases intent with hs | hs <;> rw [happlied] at hs <;> cases hs
  | ofApplied _ child => exact child
  | ofHold hold => rw [happlied] at hold; cases hold

theorem holdChild (h : Journal rows) (hp : p ∈ rows) (hold : p.status = .inflight) (hr : r ∈ rows)
    (hparent : r.parentTransaction = p.transactionID) : SettlesHold r p := by
  cases h.child hp hr hparent with
  | ofIntent intent => rcases intent with hs | hs <;> rw [hold] at hs <;> cases hs
  | ofApplied applied => rw [hold] at applied; cases applied
  | ofHold _ child => exact child

theorem intent_of_hold (h : Journal rows) (hp : p ∈ rows) (hr : r ∈ rows) (hold : r.status = .inflight)
    (hparent : r.parentTransaction = p.transactionID) : p.IsIntent := by
  cases h.child hp hr hparent with
  | ofIntent intent => exact intent
  | ofApplied _ child => rcases child.status with (hs | hs) | hs <;> rw [hold] at hs <;> cases hs
  | ofHold _ child => rcases child.status with hs | ⟨hs | hs,-⟩ <;> rw [hold] at hs <;> cases hs

end Child

theorem requested (h : Journal rows) (hr : r ∈ rows)
    (hroot : ∀ x ∈ rows, x.transactionID ≠ r.parentTransaction) :
    (r.IsIntent ∨ r.status = .applied ∨ r.status = .inflight) ∧ r.queueAction = .unset := by
  obtain ⟨pre,post,rfl,-,-,horigin⟩ := h.origin hr
  have hnever : ∀ {x : Row}, x ∈ pre → ¬ r.ChildOf x := fun hx hc =>
    hroot _ (mem_append_left _ hx) hc.parent.symm
  cases horigin with
  | request _ status action => exact ⟨status,action⟩
  | execution x hx child => exact absurd child (hnever hx)
  | rejection x hx child => exact absurd child (hnever hx)
  | settlement x hx child => exact absurd child (hnever hx)
  | completion x hx child => exact absurd child (hnever hx)
  | reversal x hx child => exact absurd child (hnever hx)
  | intentVoid x hx child => exact absurd child (hnever hx)

theorem rejects (h : Journal rows) (hr : r ∈ rows) (hstatus : r.status = .rejected) :
    ∃ i ∈ rows, i.IsIntent ∧ r.parentTransaction = i.transactionID := by
  obtain ⟨pre,post,rfl,-,-,horigin⟩ := h.origin hr
  cases horigin with
  | request _ status => rcases status with (hs | hs) | hs | hs <;> rw [hstatus] at hs <;> cases hs
  | execution _ _ _ _ _ status => split at status <;> rw [hstatus] at status <;> cases status
  | rejection i hi child intent => exact ⟨i,mem_append_left _ hi,intent,child.parent⟩
  | settlement _ _ _ _ status => rcases status with hs | ⟨hs | hs,-⟩ <;> rw [hstatus] at hs <;> cases hs
  | completion _ _ _ _ status => rw [hstatus] at status; cases status
  | reversal _ _ _ _ status => rcases status with (hs | hs) | hs <;> rw [hstatus] at hs <;> cases hs
  | intentVoid _ _ _ _ status => rw [hstatus] at status; cases status

/-- The link of a queued request or reversal leads to no other row. -/
theorem eq_of_link (h : Journal rows) {x : Row} (hi : i ∈ rows) (hintent : i.IsIntent)
    (haction : i.queueAction = .unset) (hx : x ∈ rows) (hlink : x.transactionID = i.controls.queuedParent) : x = i := by
  induction h with
  | nil => exact absurd hi not_mem_nil
  | @snoc rows last rest unused origin ih =>
    rcases mem_append.mp hi with hiold | hinew
    · rcases mem_append.mp hx with hxold | hxnew
      · exact ih hiold hxold
      · obtain rfl := mem_singleton.mp hxnew
        exact absurd hlink.symm (unused.queuedParent i hiold)
    obtain rfl := mem_singleton.mp hinew
    rcases mem_append.mp hx with hxold | hxnew
    · exfalso
      have hother : i.controls.queuedParent ≠ i.transactionID := fun he => unused.id x hxold (hlink.trans he)
      cases origin with
      | request _ _ _ link => exact (link.resolve_left hother) x hxold hlink
      | execution _ _ _ _ _ status => split at status <;> rcases hintent with hs | hs <;> rw [hs] at status <;> cases status
      | rejection _ _ _ _ status => rcases hintent with hs | hs <;> rw [hs] at status <;> cases status
      | settlement _ _ _ _ status =>
        rcases status with hs | ⟨-,hs⟩
        · rcases hintent with hq | hq <;> rw [hs] at hq <;> cases hq
        · rw [haction] at hs
          cases hs
      | completion _ _ _ _ status => rcases hintent with hs | hs <;> rw [hs] at status <;> cases status
      | reversal _ _ _ _ _ _ _ _ _ _ _ link =>
        rcases link with ⟨-,hown⟩ | ⟨happlied,-⟩
        · exact hother hown
        · rcases hintent with hs | hs <;> rw [hs] at happlied <;> cases happlied
      | intentVoid _ _ _ _ status => rcases hintent with hs | hs <;> rw [hs] at status <;> cases status
    · exact mem_singleton.mp hxnew

theorem terminal_unique (h : Journal rows) {r' : Row} (hi : i ∈ rows) (hintent : i.IsIntent)
    (hr : r ∈ rows) (hp : r.parentTransaction = i.transactionID) (ht : r.IsTerminal) (hr' : r' ∈ rows)
    (hp' : r'.parentTransaction = i.transactionID) (ht' : r'.IsTerminal) : r = r' := by
  apply h.eq_of_reference hr hr'
  rw [(h.intentChild hi hintent hr hp).reference_of_terminal ht,
    (h.intentChild hi hintent hr' hp').reference_of_terminal ht']

end Journal
end LedgerForge
