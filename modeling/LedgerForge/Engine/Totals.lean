import LedgerForge.Engine.Refunds
import LedgerForge.Library.Sums

/-! # The ledger as a whole

Clients, workers, coalesced batches, recovery passes and refunds interleave. Every row they leave moves one amount from
one stored balance to another, so nothing is created or lost.
-/

namespace LedgerForge

open List VersionedStore Sums

/-- What is credited beyond what is debited, posted and held. -/
def Counters.surplus : Counters →+ ℤ × ℤ where
  toFun c := (c.credit-c.debit,c.inflightCredit-c.inflightDebit)
  map_zero' := by simp
  map_add' a b := by
    simp only [Counters.add_credit,Counters.add_debit,Counters.add_inflightCredit,Counters.add_inflightDebit,Prod.mk_add_mk]
    congr 1 <;> ring

/-- A row credits one of the keys with what it debits from another. -/
theorem Row.surplus_delta {keys : List String} {r : Row} (hn : keys.Nodup) (hs : r.source ∈ keys) (hd : r.destination ∈ keys) :
    Counters.surplus (keys.map r.delta).sum = 0 := by
  unfold Row.delta
  cases r.movement with
  | none => simp
  | some m =>
    simp only [sum_map_add]
    rw [sum_single hn hs _ (fun _ _ => eq_comm) fun _ => m.debitSide _,
      sum_single hn hd _ (fun _ _ => eq_comm) fun _ => m.creditSide _]
    cases m <;> simp [Counters.surplus,Movement.debitSide,Movement.creditSide]

theorem Database.Accounted.surplus_eq_zero {db : Database} (h : db.Accounted) :
    Counters.surplus (db.balances.map fun c => c.value.counters).sum = 0 := by
  have hreplay : (db.balances.map fun c => c.value.counters) =
      (db.balances.map Cell.key).map fun k => (db.transactions.map fun r => r.delta k).sum := by
    rw [map_map]
    refine map_congr_left fun c hc => ?_
    rw [h.replayed c.key c (Keyed.find_of_mem h.unique hc),replay_eq_sum]
    rfl
  -- the sum over the balances of what the rows do to each is the sum over the rows
  rw [hreplay,sum_comm,map_list_sum,map_map]
  refine sum_eq_zero fun v hv => ?_
  obtain ⟨r,hr,rfl⟩ := mem_map.mp hv
  exact Row.surplus_delta h.unique (h.endpoints r hr).1 (h.endpoints r hr).2

namespace Executors

open Cluster

theorem runRefunds_sound (actions : List RefundAction) : (runRefunds actions).Sound :=
  EventRuns.invariant Cluster.Sound empty_sound (fun _ action h => h.stepRefund action) actions

/-- Whatever interleaves, the balances sum to zero, posted and held. -/
theorem ledger_balances (actions : List RefundAction) :
    let balances := (runRefunds actions).engine.database.balances
    Counters.surplus (balances.map fun c => c.value.counters).sum = 0 ∧
      (balances.map fun c => (c.value.balance,c.value.inflightBalance)).sum = 0 := by
  intro balances
  have hsound := (runRefunds_sound actions).engine
  have hzero : Counters.surplus (balances.map fun c => c.value.counters).sum = 0 := hsound.accounted.surplus_eq_zero
  refine ⟨hzero,?_⟩
  rw [← hzero,map_list_sum,map_map]
  refine congrArg List.sum (map_congr_left fun c hc => ?_)
  obtain ⟨hbalance,hinflight⟩ := hsound.consistent c hc
  exact Prod.ext hbalance hinflight

/-- Whatever interleaves, the rows are a journal that keeps the bounds of its holds, and the counters are its replay. -/
theorem cluster_refines_journal (actions : List RefundAction) :
    Journal (runRefunds actions).rows ∧ Bounded (runRefunds actions).rows ∧
      ∀ c ∈ (runRefunds actions).engine.database.balances,
        c.value.counters = replay (runRefunds actions).rows c.key ∧ c.value.Consistent := by
  have hsound := (runRefunds_sound actions).engine
  refine ⟨hsound.journal,hsound.bounded,fun c hc => ⟨?_,hsound.consistent c hc⟩⟩
  exact hsound.accounted.replayed c.key c (Keyed.find_of_mem hsound.accounted.unique hc)

end Executors
end LedgerForge
