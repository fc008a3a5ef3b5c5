import LedgerForge.Model.LegEffects

/-! # Double entry over runs

A run applies operations to ordered pairs of distinct balances of a finite set, keeping whatever the
application left in memory also after an error. Derived totals, non-negative counters and equality
of the two sides are kept by every step, and errors leave counters alone, except for one kind of
step: a commit whose major-unit amount overflows the double.
-/

namespace LedgerForge.DoubleEntry

open Function Movement Finset Float64

variable {ι : Type} [Fintype ι] [DecidableEq ι]

/-- A transaction applied to an ordered pair of distinct balances. -/
structure Operation (ι : Type) where
  source : ι
  destination : ι
  distinct : source ≠ destination
  transaction : Transaction

namespace Operation

def legs (o : Operation ι) (s : ι → Balance) : Legs := ⟨o.transaction,s o.source,s o.destination⟩

def error (o : Operation ι) (s : ι → Balance) : Option String := (o.legs s).applyTransactionToBalances.1

def step (s : ι → Balance) (o : Operation ι) : ι → Balance :=
  let l := (o.legs s).applyTransactionToBalances.2
  update (update s o.source l.source) o.destination l.destination

/-- A commit with valid fields and a sufficient reservation whose major-unit amount is not a finite
double. -/
def Overflows (o : Operation ι) (s : ι → Balance) : Prop :=
  o.transaction.status = .commit ∧ o.transaction.validateMonetaryFields = .ok () ∧
    (o.legs s).reservationError = none ∧ o.transaction.majorAmount.isFinite = false

/-- An error leaves every counter as it was. -/
def ErrorAtomic (o : Operation ι) (s : ι → Balance) : Prop :=
  o.error s ≠ none → ∀ i, (o.step s i).counters = (s i).counters

end Operation

def run (s : ι → Balance) (ops : List (Operation ι)) : ι → Balance := ops.foldl Operation.step s

/-- Balances without any posting. -/
def Zero (s : ι → Balance) : Prop := ∀ i, (s i).counters = 0 ∧ (s i).balance = 0 ∧ (s i).inflightBalance = 0

/-- Derived totals agree, counters are non-negative, and each side's credits equal its debits. -/
structure Balanced (s : ι → Balance) : Prop where
  consistent : ∀ i, (s i).Consistent
  nonneg : ∀ i, 0 ≤ (s i).counters.credit ∧ 0 ≤ (s i).counters.debit ∧
    0 ≤ (s i).counters.inflightCredit ∧ 0 ≤ (s i).counters.inflightDebit
  settled : ∑ i, (s i).counters.credit = ∑ i, (s i).counters.debit
  inflight : ∑ i, (s i).counters.inflightCredit = ∑ i, (s i).counters.inflightDebit

omit [Fintype ι] [DecidableEq ι] in
theorem Zero.balanced [Fintype ι] {s : ι → Balance} (h : Zero s) : Balanced s where
  consistent i := by simp [Balance.Consistent,h i]
  nonneg i := by simp [h i]
  settled := by simp [fun i => (h i).1]
  inflight := by simp [fun i => (h i).1]

theorem sum_update (f : ι → ℤ) (i : ι) (b : ℤ) : ∑ k, update f i b k = ∑ k, f k-f i+b := by
  rw [sum_update_of_mem (mem_univ i),
    ← add_sum_erase univ f (mem_univ i),sdiff_singleton_eq_erase]
  ring

theorem sum_legs (f : Balance → ℤ) (s : ι → Balance) {i j : ι} (hij : i ≠ j) (x y : Balance) :
    ∑ k, f (update (update s i x) j y k) = ∑ k, f (s k)+(f x-f (s i))+(f y-f (s j)) := by
  have hcomp : (fun k => f (update (update s i x) j y k)) =
      update (update (fun k => f (s k)) i (f x)) j (f y) := by
    funext k
    by_cases hj : k = j
    · subst hj
      simp
    by_cases hi : k = i
    · subst hi
      simp [hij]
    · simp [hi,hj]
  simp only [hcomp,sum_update,update_of_ne hij.symm]
  ring

/-- A successful application keeps the books balanced. -/
theorem Balanced.applied {s : ι → Balance} (h : Balanced s) (o : Operation ι) {l : Legs} {a : ℤ}
    (ha : Legs.Applied (o.legs s) l a) :
    Balanced (update (update s o.source l.source) o.destination l.destination) := by
  have hsource : l.source.counters = (s o.source).counters+o.transaction.movement.debitSide a := ha.source.counters
  have hdestination : l.destination.counters = (s o.destination).counters+o.transaction.movement.creditSide a :=
    ha.destination.counters
  have hpos := ha.positive
  have hcovered : o.transaction.movement.settles = true →
      a ≤ (s o.source).counters.inflightDebit ∧ a ≤ (s o.destination).counters.inflightCredit := ha.covered
  have hs := h.nonneg o.source
  have hd := h.nonneg o.destination
  refine ⟨fun i => ?_,fun i => ?_,?_,?_⟩
  · by_cases hi : i = o.destination
    · subst hi
      simpa using ha.destination.consistent (h.consistent _)
    by_cases hi' : i = o.source
    · subst hi'
      simpa [hi] using ha.source.consistent (h.consistent _)
    · simpa [hi,hi'] using h.consistent i
  · by_cases hi : i = o.destination
    · subst hi
      rw [update_self,hdestination]
      revert hcovered
      cases o.transaction.movement <;> simp [creditSide,settles] <;> omega
    rw [update_of_ne hi]
    by_cases hi' : i = o.source
    · subst hi'
      rw [update_self,hsource]
      revert hcovered
      cases o.transaction.movement <;> simp [debitSide,settles] <;> omega
    · rw [update_of_ne hi']
      exact h.nonneg i
  · rw [sum_legs (fun b => b.counters.credit) s o.distinct,sum_legs (fun b => b.counters.debit) s o.distinct,
      hsource,hdestination,h.settled]
    cases o.transaction.movement <;> simp [debitSide,creditSide]
  · rw [sum_legs (fun b => b.counters.inflightCredit) s o.distinct,
      sum_legs (fun b => b.counters.inflightDebit) s o.distinct,hsource,hdestination,h.inflight]
    cases o.transaction.movement <;> simp [debitSide,creditSide]

theorem step_balanced {s : ι → Balance} {o : Operation ι} (h : ¬ o.Overflows s) :
    (Balanced s → Balanced (o.step s)) ∧ o.ErrorAtomic s := by
  have houtcome := (o.legs s).applyTransactionToBalances_outcome
  rw [Operation.ErrorAtomic,Operation.error,Operation.step]
  generalize (o.legs s).applyTransactionToBalances = r at houtcome
  cases houtcome with
  | applied ha => exact ⟨fun hb => hb.applied o ha,fun he => absurd rfl he⟩
  | refused e t =>
    have hsame : update (update s o.source (o.legs s).source) o.destination
        (o.legs s).destination = s := by
      simp [Operation.legs]
    simp only [hsame]
    exact ⟨id,fun _ _ => trivial⟩
  | halfCommitted hstatus hvalid hreserved hoverflow => exact absurd ⟨hstatus,hvalid,hreserved,hoverflow⟩ h

omit [Fintype ι] in
theorem not_errorAtomic_of_overflows {s : ι → Balance} {o : Operation ι} (h : o.Overflows s) :
    ¬ o.ErrorAtomic s := by
  obtain ⟨hstatus,hvalid,hreserved,hoverflow⟩ := h
  obtain ⟨a,hamount,hpos,hdebit,hcredit⟩ := Legs.reservationError_eq_none.mp hreserved
  have hstatus' : (o.legs s).transaction.status = .commit := hstatus
  have hcommit := Legs.commitLegs_of_valid hvalid hamount hpos hdebit hcredit
  rw [if_neg (by exact hoverflow ▸ Bool.false_ne_true)] at hcommit
  have happly : (o.legs s).applyTransactionToBalances = (o.legs s).commitLegs := by
    rw [Legs.applyTransactionToBalances,hstatus',hreserved]
  intro hatomic
  have hsame := hatomic (by rw [Operation.error,happly,hcommit]; exact Option.some_ne_none _) o.source
  rw [Operation.step,happly,hcommit] at hsame
  simp only [update_of_ne o.distinct,update_self] at hsame
  have hdebits := congrArg Counters.debit hsame
  rw [((o.legs s).source.moved_settleDebit a).counters] at hdebits
  simp [debitSide,Operation.legs] at hdebits
  omega

/-- The books are balanced in every state of a run and every error in it leaves the counters alone,
exactly when no commit of the run overflows. -/
theorem balanced_run_iff {s₀ : ι → Balance} (h₀ : Zero s₀) (ops : List (Operation ι)) :
    ((∀ pre, pre <+: ops → Balanced (run s₀ pre)) ∧
        ∀ pre o, pre ++ [o] <+: ops → o.ErrorAtomic (run s₀ pre)) ↔
      ∀ pre o, pre ++ [o] <+: ops → ¬ o.Overflows (run s₀ pre) := by
  constructor
  · intro h pre o hpre hoverflow
    exact not_errorAtomic_of_overflows hoverflow (h.2 pre o hpre)
  · intro h
    refine ⟨fun pre => ?_,fun pre o hpre => (step_balanced (h pre o hpre)).2⟩
    induction pre using List.reverseRecOn with
    | nil => exact fun _ => h₀.balanced
    | append_singleton pre o ih =>
      intro hpre
      rw [run,List.foldl_append]
      exact (step_balanced (h pre o hpre)).1 (ih ((List.prefix_append pre [o]).trans hpre))

section Overflow

/-- Two balances without any posting. -/
def zeroPair (i : Fin 2) : Balance where
  balanceID := if i = 0 then "bln_a" else "bln_b"
  currency := "USD"
  counters := 0
  balance := 0
  inflightBalance := 0
  queuedDebitBalance := none
  version := 0

def hugeTransfer (status : Status) (inflight : Bool) : Operation (Fin 2) where
  source := 0
  destination := 1
  distinct := by decide
  transaction :=
    { transactionID := "txn_1", parentTransaction := "", parentKind := .unset, queuedParent := "",
      source := "bln_a", destination := "bln_b", reference := "ref_1", currency := "USD",
      amount := ofInt 0, amountString := "", preciseAmount := some (10^309),
      precision := ofInt 1, rate := ofInt 0, overdraftLimit := ofInt 0,
      status := status, queueAction := .unset, allowOverdraft := true, inflight := inflight,
      skipQueue := true, atomic := false, scheduled := false }

theorem zeroPair_zero : Zero zeroPair := fun _ => ⟨rfl,rfl,rfl⟩

/-- A run of plain transfers and holds has no commit that could overflow. -/
theorem huge_hold_balanced : Zero zeroPair ∧ Balanced (run zeroPair [hugeTransfer .queued true]) := by
  refine ⟨zeroPair_zero,((balanced_run_iff zeroPair_zero [hugeTransfer .queued true]).mpr ?_).1 _ List.prefix_rfl⟩
  intro pre o hpre hoverflow
  obtain rfl : o = hugeTransfer .queued true :=
    List.mem_singleton.mp (hpre.subset (List.mem_append_right _ (List.mem_singleton_self o)))
  cases hoverflow.1

/-- Holding and then committing `10 ^ 309`: the commit fails, yet the source has been debited. -/
theorem huge_commit_debits_on_error :
    ((hugeTransfer .commit false).error (run zeroPair [hugeTransfer .queued true]) =
        some "commit inflight credit failed: inflight amount must be positive") ∧
      ((run zeroPair [hugeTransfer .queued true,hugeTransfer .commit false] 0).counters = ⟨0,10^309,0,0⟩) ∧
      ((run zeroPair [hugeTransfer .queued true,hugeTransfer .commit false] 1).counters = ⟨0,0,10^309,0⟩) ∧
      ¬ Balanced (run zeroPair [hugeTransfer .queued true,hugeTransfer .commit false]) := by
  have hsource : (run zeroPair [hugeTransfer .queued true,hugeTransfer .commit false] 0).counters =
      ⟨0,10^309,0,0⟩ := by decide +kernel
  have hdestination : (run zeroPair [hugeTransfer .queued true,hugeTransfer .commit false] 1).counters =
      ⟨0,0,10^309,0⟩ := by decide +kernel
  refine ⟨by decide +kernel,hsource,hdestination,fun h => ?_⟩
  have hsettled := h.settled
  revert hsettled
  decide +kernel

end Overflow

end LedgerForge.DoubleEntry
