import LedgerForge.Storage.Statements

/-! # What the lifecycle trigger accepts

One inversion of the trigger: the five ways in which it lets a row in, each with everything that was
checked on the way.
-/

namespace LedgerForge

open Keyed

/-- How the trigger let a row in. -/
inductive Lifecycle (rows : List Row) (claims : List RefundClaim) (new : Row) (claims' : List RefundClaim) : Prop
  | root (parent : new.parentTransaction = "" ∨
        find Row.transactionID rows new.parentTransaction = none)
      (action : new.queueAction = .unset) (kept : claims' = claims)
  | reversal (parent : Row) (found : find Row.transactionID rows new.parentTransaction = some parent)
      (reference : new.reference = parent.transactionID ++ "_refund") (applied : parent.status = .applied)
      (reverses : reversesLegs new parent = true)
      (claimed : claimRefund claims ⟨parent.transactionID,new.transactionID⟩ = .ok claims')
  | completion (parent : Row) (found : find Row.transactionID rows new.parentTransaction = some parent)
      (reference : new.reference ≠ parent.transactionID ++ "_refund") (queued : parent.queueAction = .commit)
      (completes : completesCommit new parent = true)
      (only : ∀ x ∈ rows, x.parentTransaction ≠ parent.transactionID) (kept : claims' = claims)
  | settlement (parent : Row) (found : find Row.transactionID rows new.parentTransaction = some parent)
      (reference : new.reference ≠ parent.transactionID ++ "_refund") (unqueued : parent.queueAction ≠ .commit)
      (hold : parent.status = .inflight) (settles : settlesHold new = true)
      (action : new.status = .queued → new.queueAction = .commit) (positive : 0 < new.preciseAmount.getD 0)
      (terms : sameTerms new parent = true) (bound : withinRemaining rows new parent = true) (kept : claims' = claims)
  | other (parent : Row) (found : find Row.transactionID rows new.parentTransaction = some parent)
      (reference : new.reference ≠ parent.transactionID ++ "_refund") (unqueued : parent.queueAction ≠ .commit)
      (notHold : ¬ (parent.status = .inflight ∧ settlesHold new = true)) (action : new.queueAction = .unset)
      (kept : claims' = claims)

variable {claims claims' : List RefundClaim}

theorem withoutParent_ok {new : Row} (h : withoutParent claims new = .ok claims') :
    new.queueAction = .unset ∧ claims' = claims := by
  obtain ⟨ha,h⟩ := ok_of_guard h
  cases h
  exact ⟨not_not.mp ha,rfl⟩

theorem lifecycle_cases {rows : List Row} {new : Row}
    (h : claimTransactionLifecycle rows claims new = .ok claims') : Lifecycle rows claims new claims' := by
  rw [claimTransactionLifecycle] at h
  split at h
  · rename_i hp
    obtain ⟨ha,hk⟩ := withoutParent_ok h
    exact .root (.inl hp) ha hk
  split at h
  · rename_i hn
    obtain ⟨ha,hk⟩ := withoutParent_ok h
    exact .root (.inr hn) ha hk
  rename_i parent hfound
  split at h
  · rename_i href
    split_ifs at h with happlied hlegs
    exact .reversal parent hfound href (not_not.mp happlied) (Bool.not_eq_false _ ▸ hlegs) h
  rename_i href
  split at h
  · rename_i hqueued
    split_ifs at h with hcompletes hany
    cases h
    refine .completion parent hfound href hqueued (Bool.not_eq_false _ ▸ hcompletes) (fun x hx he => hany ?_) rfl
    exact List.any_eq_true.mpr ⟨x,hx,decide_eq_true he⟩
  · rename_i hunqueued
    split at h
    · rename_i hhold
      rw [claimSettlement] at h
      split_ifs at h with haction hterms hbound
      cases h
      rw [not_or,not_le] at hterms
      refine .settlement parent hfound href hunqueued hhold.1 hhold.2 (fun hs => ?_) hterms.1
        (Bool.not_eq_false _ ▸ hterms.2) (Bool.not_eq_false _ ▸ hbound) rfl
      exact not_not.mp fun hne => haction ⟨hs,hne⟩
    · rename_i hother
      obtain ⟨ha,hk⟩ := withoutParent_ok h
      exact .other parent hfound href hunqueued hother ha hk

/-- What the trigger and the unique indexes checked for one row. -/
structure Checked (rows : List Row) (claims : List RefundClaim) (new : Row) (claims' : List RefundClaim) : Prop where
  lifecycle : claimTransactionLifecycle rows claims new = .ok claims'
  freshID : ∀ x ∈ rows, x.transactionID ≠ new.transactionID
  freshReference : ∀ x ∈ rows, x.reference ≠ new.reference

/-- Rows checked one after the other, each against the ones before it. -/
inductive CheckedAll : List Row → List RefundClaim → List Row → List RefundClaim → Prop
  | nil (rows : List Row) (claims : List RefundClaim) : CheckedAll rows claims [] claims
  | cons {rows rs : List Row} {claims mid claims' : List RefundClaim} {r : Row} (head : Checked rows claims r mid)
      (tail : CheckedAll (rows ++ [r]) mid rs claims') : CheckedAll rows claims (r :: rs) claims'

theorem CheckedAll.single {rows : List Row} {r : Row}
    (h : CheckedAll rows claims [r] claims') : Checked rows claims r claims' := by
  cases h with
  | cons head tail =>
    cases tail
    exact head

theorem Database.InsertedAll.checked {db db' : Database} {rs : List Row} (h : Database.InsertedAll db rs db') :
    CheckedAll db.transactions db.refundClaims rs db'.refundClaims := by
  induction h with
  | nil db => exact .nil _ _
  | cons head _ ih =>
    rw [head.transactions] at ih
    exact .cons ⟨head.lifecycle,head.freshID,head.freshReference⟩ ih

end LedgerForge
