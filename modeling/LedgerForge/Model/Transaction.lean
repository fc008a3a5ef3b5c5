import LedgerForge.Numeric.Float64

/-! # Transactions, balances and execution controls

The records that the posting engine passes around. Texts with a closed set of meanings (status,
queue action, parent kind) are enumerations with one constructor for anything else a stored row may
contain. Minor-unit amounts are unbounded integers; an absent precise amount is `none`.
-/

namespace LedgerForge

/-- Transaction status text. -/
inductive Status
  | queued
  | scheduled
  | applied
  | inflight
  | void
  | rejected
  | commit
  | other (text : String)
deriving DecidableEq

def Status.text : Status → String
  | .queued => "QUEUED"
  | .scheduled => "SCHEDULED"
  | .applied => "APPLIED"
  | .inflight => "INFLIGHT"
  | .void => "VOID"
  | .rejected => "REJECTED"
  | .commit => "COMMIT"
  | .other s => s

/-- Lifecycle action of a queued intent. -/
inductive QueueAction
  | unset
  | commit
  | other (text : String)
deriving DecidableEq

/-- What a parent id refers to: an economic row, or a group that has no row of its own. -/
inductive ParentKind
  | unset
  | economic
  | group
  | other (text : String)
deriving DecidableEq

/-- The execution controls persisted with a row, as far as the modelled functions read them. -/
structure ExecutionControls where
  economicVersion : ℤ
  allowOverdraft : Bool
  inflight : Bool
  atomic : Bool
  skipQueue : Bool
  parentKind : ParentKind
  queuedParent : String
deriving DecidableEq

/-- A transaction as the engine holds it in memory. -/
structure Transaction where
  transactionID : String
  parentTransaction : String
  parentKind : ParentKind
  queuedParent : String
  source : String
  destination : String
  reference : String
  currency : String
  amount : Float64
  amountString : String
  preciseAmount : Option ℤ
  precision : Float64
  rate : Float64
  overdraftLimit : Float64
  status : Status
  queueAction : QueueAction
  allowOverdraft : Bool
  inflight : Bool
  skipQueue : Bool
  atomic : Bool
  scheduled : Bool
deriving DecidableEq

def Transaction.executionControls (t : Transaction) : ExecutionControls where
  economicVersion := 1
  allowOverdraft := t.allowOverdraft
  inflight := t.inflight
  atomic := t.atomic
  skipQueue := t.skipQueue
  parentKind := t.parentKind
  queuedParent := t.queuedParent

def ExecutionControls.apply (c : ExecutionControls) (t : Transaction) : Transaction :=
  { t with allowOverdraft := c.allowOverdraft, inflight := c.inflight, atomic := c.atomic,
           skipQueue := c.skipQueue, parentKind := c.parentKind, queuedParent := c.queuedParent }

/-- The four accumulating counters of a balance. -/
@[ext] structure Counters where
  credit : ℤ
  debit : ℤ
  inflightCredit : ℤ
  inflightDebit : ℤ
deriving DecidableEq

/-- A balance in memory, with the version it was read at. Unset counters of the source are zero here;
the queued debit total is only present when queued checks are on. -/
structure Balance where
  balanceID : String
  currency : String
  counters : Counters
  balance : ℤ
  inflightBalance : ℤ
  queuedDebitBalance : Option ℤ
  version : ℕ
deriving DecidableEq

namespace Counters

instance : Zero Counters := ⟨⟨0,0,0,0⟩⟩
instance : Add Counters := ⟨fun a b =>
  ⟨a.credit+b.credit,a.debit+b.debit,a.inflightCredit+b.inflightCredit,a.inflightDebit+b.inflightDebit⟩⟩

@[simp] theorem zero_credit : (0 : Counters).credit = 0 := rfl
@[simp] theorem zero_debit : (0 : Counters).debit = 0 := rfl
@[simp] theorem zero_inflightCredit : (0 : Counters).inflightCredit = 0 := rfl
@[simp] theorem zero_inflightDebit : (0 : Counters).inflightDebit = 0 := rfl
@[simp] theorem add_credit (a b : Counters) : (a+b).credit = a.credit+b.credit := rfl
@[simp] theorem add_debit (a b : Counters) : (a+b).debit = a.debit+b.debit := rfl
@[simp] theorem add_inflightCredit (a b : Counters) :
    (a+b).inflightCredit = a.inflightCredit+b.inflightCredit := rfl
@[simp] theorem add_inflightDebit (a b : Counters) :
    (a+b).inflightDebit = a.inflightDebit+b.inflightDebit := rfl

instance : AddCommMonoid Counters where
  add_assoc a b c := by ext <;> simp [add_assoc]
  zero_add a := by ext <;> simp
  add_zero a := by ext <;> simp
  add_comm a b := by ext <;> simp [add_comm]
  nsmul := nsmulRec

end Counters
end LedgerForge
