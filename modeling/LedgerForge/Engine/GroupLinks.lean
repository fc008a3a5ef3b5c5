import LedgerForge.Engine.Runs
import LedgerForge.Journal.Children

/-! # Finding the rows of a group

Refunds and rollbacks look for the rows of a group by its identifier: through the row itself, its parent,
or the queued parent among its controls. A leg of a queued split is copied from the split before the
queued parent is set, and the row that executes the leg has the leg as its parent, so no link leads back.
-/

namespace LedgerForge

open Float64 Row Bool

namespace Row

/-- Selection by `refundableTransactionsByParentIDSQL`: the row itself, children and linked rows, without
their reversals. -/
def refundable (id : String) (r : Row) : Bool :=
  r.status = .applied && (r.transactionID = id ||
    r.parentTransaction = id && r.reference ≠ r.parentTransaction ++ "_refund" ||
    r.controls.queuedParent = id && r.reference ≠ r.controls.queuedParent ++ "_refund")

def heldUnder (id : String) (r : Row) : Bool :=
  r.status = .inflight && (r.transactionID = id || r.parentTransaction = id || r.controls.queuedParent = id)

/-- Intents of holds that are only considered when no hold is found. -/
def queuedHoldUnder (rows : List Row) (id : String) (r : Row) : Bool :=
  r.status = .queued && r.controls.inflight && (r.transactionID = id || r.parentTransaction = id) &&
    !(rows.any fun x => x.reference = r.reference ++ "_q" && x.status = .rejected) &&
    !(rows.any fun x => x.parentTransaction = r.transactionID && x.status = .inflight)

end Row

namespace Database

def getRefundableTransactionsByParentID (db : Database) (id : String) : List Row :=
  (db.transactions.filter (refundable id)).reverse

def getInflightTransactionsByParentID (db : Database) (id : String) : List Row :=
  if db.transactions.any (heldUnder id) then (db.transactions.filter (heldUnder id)).reverse
  else (db.transactions.filter (queuedHoldUnder db.transactions id)).reverse

end Database

namespace Engine

open Database

def Posts (id : String) (r : Row) : Prop := r.parentTransaction = id ∧ (r.status = .applied ∨ r.status = .inflight)
deriving Decidable

def QueuedLeg (ops : List Operation) (splitID legID : String) : Prop :=
  ∃ before request leg copyID queuedDebit rest, ops = before ++ .postLeg request leg splitID legID copyID queuedDebit :: rest ∧
    request.skipQueue = false ∧ (run before).accepts (.postLeg request leg splitID legID copyID queuedDebit) = true

/-- The stored intent of a leg. -/
structure LegIntent (splitID legID : String) (i : Row) : Prop where
  key : i.transactionID = legID
  parent : i.parentTransaction = splitID
  intent : i.IsIntent
  plain : i.queueAction = .unset
  unlinked : i.controls.queuedParent = ""
  split : splitID ≠ "" ∧ splitID ≠ legID

theorem groupAllowed_ne {e : Engine} {ids : List String} {group : String} (h : e.groupAllowed ids group = true) :
    group ≠ "" ∧ group ∉ ids := by
  simp only [groupAllowed,and_eq_true,not_eq_true',decide_eq_false_iff_not,decide_eq_true_eq] at h
  exact ⟨h.1.1.1,h.1.1.2⟩

theorem QueuedLeg.stored {ops : List Operation} {splitID legID : String} (h : QueuedLeg ops splitID legID) :
    ∃ i ∈ (run ops).database.transactions, LegIntent splitID legID i := by
  obtain ⟨before,request,leg,copyID,queuedDebit,rest,rfl,hqueued,haccepted⟩ := h
  obtain ⟨hadmissible,hperform⟩ := accepts_spec haccepted
  rw [admissible,and_eq_true] at hadmissible
  obtain ⟨hids,hgroup⟩ := hadmissible
  have hsound := sound_run before
  obtain ⟨rs,happended,hrs,hne⟩ := leg_appended hsound hids hgroup hperform
  obtain ⟨i,hi⟩ := List.exists_mem_of_ne_nil rs (hne hqueued)
  have hrow := hrs i hi
  have hstatus := hrow.status
  have hlink := hrow.queuedParent
  rw [hqueued] at hstatus hlink
  obtain ⟨hsplit,hleg⟩ := groupAllowed_ne hgroup
  refine ⟨i,?_,hrow.key,hrow.parent,hstatus,hrow.action,hlink,hsplit,fun he => hleg (he ▸ List.mem_cons_self)⟩
  -- later steps only append
  rw [run_append]
  apply (sound_foldl ((step_ok hsound _).sound hsound) rest).2.subset
  rw [happended.posted.transactions]
  exact List.mem_append_right _ hi

theorem LegIntent.lost {rows : List Row} {splitID legID : String} {i r : Row} (hj : Journal rows) (hi : i ∈ rows)
    (h : LegIntent splitID legID i) (hr : r ∈ rows) (hposts : Posts legID r) :
    r.refundable splitID = false ∧ r.heldUnder splitID = false := by
  have hparent : r.parentTransaction = i.transactionID := hposts.1.trans h.key.symm
  have hkey : r.transactionID ≠ splitID := by
    obtain ⟨pre,_,_,hpre,_,hunused,_⟩ := hj.parent_before hi hr hparent
    exact fun he => hunused.parent i hpre (h.parent.trans he.symm)
  have hnotChild : r.parentTransaction ≠ splitID := fun he => h.split.2 (he.symm.trans hposts.1)
  have hnotLinked : r.controls.queuedParent ≠ splitID := by
    cases hj.intentChild hi h.intent hr hparent with
    | execution _ _ _ _ _ queuedParent =>
      rw [queuedParent,h.unlinked]
      exact h.split.1.symm
    | rejection status => rcases hposts.2 with hs | hs <;> rw [status] at hs <;> cases hs
    | completion queued =>
      have haction := queued.2
      rw [h.plain] at haction
      cases haction
    | void _ status => rcases hposts.2 with hs | hs <;> rw [status] at hs <;> cases hs
  constructor
  · simp [refundable,hkey,hnotChild,hnotLinked]
  · simp [heldUnder,hkey,hnotChild,hnotLinked]

/-- The rows posted for the legs of a queued split are found through it only as long as there are none. -/
theorem queued_split_linkage (ops : List Operation) (splitID : String) :
    (∀ legID, QueuedLeg ops splitID legID → ∀ r ∈ (run ops).database.transactions, Posts legID r →
      r.refundable splitID = true ∨ r.heldUnder splitID = true) ↔
    ∀ legID, QueuedLeg ops splitID legID → ∀ r ∈ (run ops).database.transactions, ¬ Posts legID r := by
  constructor
  · intro hfound legID hleg r hr hposts
    obtain ⟨i,hi,hintent⟩ := hleg.stored
    obtain ⟨hrefund,hheld⟩ := hintent.lost (sound_run ops).journal hi hr hposts
    rcases hfound legID hleg r hr hposts with hf | hf
    · exact absurd hf (eq_false_iff.mp hrefund)
    · exact absurd hf (eq_false_iff.mp hheld)
  · intro hnone legID hleg r hr hposts
    exact absurd hposts (hnone legID hleg r hr)

def transferRequest (reference : String) (amount : ℤ) : Request where
  source := "bln_a"
  destination := "bln_b"
  reference := reference
  currency := "USD"
  amount := ofInt 0
  amountString := ""
  preciseAmount := some amount
  precision := ofInt 100
  rate := ofInt 1
  overdraftLimit := ofInt 0
  allowOverdraft := true
  inflight := false
  skipQueue := false
  atomic := false
  scheduled := false

def executedSplit : List Operation :=
  [.createBalance "bln_a" "USD",.createBalance "bln_b" "USD",.createBalance "bln_c" "USD",
    .postLeg (transferRequest "s" 100) ⟨"bln_a","bln_b","s_1",60⟩ "txn_0" "txn_1" "txn_2" none,
    .postLeg (transferRequest "s" 100) ⟨"bln_a","bln_c","s_2",40⟩ "txn_0" "txn_3" "txn_4" none,.work 0 none,.work 1 none]

theorem executed_split_not_found : QueuedLeg executedSplit "txn_0" "txn_1" ∧ QueuedLeg executedSplit "txn_0" "txn_3" ∧
    (∃ r ∈ (run executedSplit).database.transactions, Posts "txn_1" r) ∧
    (∃ r ∈ (run executedSplit).database.transactions, Posts "txn_3" r) ∧
    (run executedSplit).database.getRefundableTransactionsByParentID "txn_0" = [] ∧
    (run executedSplit).database.getInflightTransactionsByParentID "txn_0" = [] := by
  refine ⟨⟨executedSplit.take 3,_,_,_,_,executedSplit.drop 4,rfl,rfl,?_⟩,
    ⟨executedSplit.take 4,_,_,_,_,executedSplit.drop 5,rfl,rfl,?_⟩,?_⟩
  all_goals decide +kernel

end Engine
end LedgerForge
