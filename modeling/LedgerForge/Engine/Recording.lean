import LedgerForge.Engine.BatchEffects

/-! # Recording, rejecting and executing queued transactions

The engine functions that read rows back, execute one transaction against the stored balances, and
run the queue copies of intents. Generated identifiers and the answer of the queued-debit query are
parameters; a failed call leaves the database as it was.
-/

namespace LedgerForge

/-- A row scanned back into a transaction: the exact text of the amount is not restored, and an amount
that does not fit a double cannot be read. -/
def Row.toTransaction (r : Row) : Except String Transaction :=
  match RatText.setString r.amount, r.preciseAmount with
  | some major, some minor =>
    if !(Float64.ofRat major).isFinite then .error "Failed to retrieve transaction"
    else .ok (r.controls.apply
      { transactionID := r.transactionID, parentTransaction := r.parentTransaction, parentKind := .unset,
        queuedParent := "", source := r.source, destination := r.destination, reference := r.reference,
        currency := r.currency, amount := Float64.ofRat major, amountString := "", preciseAmount := some minor,
        precision := Float64.ofInt r.precision, rate := r.rate, overdraftLimit := r.overdraftLimit,
        status := r.status, queueAction := r.queueAction, allowOverdraft := false, inflight := false,
        skipQueue := false, atomic := false, scheduled := false })
  | _, _ => .error "Failed to retrieve transaction"

/-- Rows loaded for recovery and coalescing have precision applied again. -/
def Row.toQueuedTransaction (r : Row) : Except String Transaction :=
  r.toTransaction.map fun t => t.applyPrecision.2

namespace Transaction

def setTransactionStatus (t : Transaction) : Transaction :=
  if t.scheduled then { t with status := .scheduled }
  else if t.status = .other "" then { t with status := .queued }
  else t

def setTransactionMetadata (t : Transaction) (newID : String) : Transaction :=
  let (amount,t) := t.applyPrecision
  { t with preciseAmount := some amount, transactionID := if t.transactionID = "" then newID else t.transactionID }

def createQueueCopy (t : Transaction) (originalRef newID : String) : Transaction :=
  let copy := { t with transactionID := newID, parentTransaction := t.transactionID, parentKind := .economic,
                       reference := originalRef ++ "_q" }
  if t.queueAction = .commit then { copy with status := .commit, inflight := false } else copy

/-- A transaction after its trip through the queue; the parent kind is not serialised. -/
def payload (t : Transaction) : Transaction := { t with parentKind := .unset }

/-- The message that is enqueued; an amount that is not a finite double cannot be serialised. -/
def message (t : Transaction) : List Transaction := if t.amount.isFinite then [t.payload] else []

end Transaction

namespace Database

def getTransaction (db : Database) (id : String) : Except String Transaction :=
  match db.findTransaction id with
  | none => .error ("Transaction with ID '" ++ id ++ "' not found")
  | some r => r.toTransaction

def rejectTransaction (db : Database) (t : Transaction) : Except String Database :=
  db.recordTransaction { t with status := .rejected }.applyPrecision.2

/-- Execute one transaction; a zero amount is rejected when it came from the queue and dropped otherwise. -/
def recordTransactionSingle (db : Database) (t : Transaction) (viaQueue : Bool) (queuedDebit : Option ℤ) :
    Except String Database :=
  if db.referenceExists t.reference then
    .error ("transaction validation failed: reference " ++ t.reference ++ " has already been used")
  else match db.findBalance t.source, db.findBalance t.destination with
    | some source, some destination => do
      match ← prepareSingle t (loadBalance source queuedDebit) (loadBalance destination none) with
      | .zero t => if viaQueue then db.rejectTransaction t else .ok db
      | .persist work => db.recordTransactionWithBalances work.transaction work.source work.destination
    | _, _ => .error "failed to get source and destination balances"

def withIntentControls (db : Database) (t : Transaction) : Except String Transaction :=
  if t.parentTransaction = "" ∨ t.parentKind = .group then .ok t
  else do
    let intent ← db.getTransaction t.parentTransaction
    if intent.status = .queued ∨ intent.status = .scheduled then
      let t := { intent.executionControls.apply t with
        parentKind := t.parentKind, overdraftLimit := intent.overdraftLimit, queueAction := intent.queueAction }
      .ok (if intent.queueAction = .commit then { t with inflight := false } else t)
    else .ok t

def processQueuedTransaction (db : Database) (t : Transaction) (queuedDebit : Option ℤ) : Except String Database := do
  let t ← db.withIntentControls t
  db.recordTransactionSingle t true queuedDebit

/-- Rejection of a queue copy after its execution failed. -/
def handleTransactionRejection (db : Database) (t : Transaction) : Except String Database :=
  match db.withIntentControls t with
  | .ok t => db.rejectTransaction t
  | .error _ => db.rejectTransaction t

def childless (db : Database) (id : String) : Bool := !db.transactions.any fun r => r.parentTransaction = id

/-- A stored intent without children that may join a batch, as its queue copy. -/
def coalescingSibling (db : Database) (id copyID : String) : Except String Transaction :=
  match db.findTransaction id with
  | none => .error ("Transaction with ID '" ++ id ++ "' not found")
  | some r =>
    if r.status = .queued ∧ db.childless id = true then do
      let t ← r.toQueuedTransaction
      canCoalesceQueuedOriginal t
      .ok (t.createQueueCopy t.reference copyID)
    else .error "status_not_queued"

/-- The balances of a batch, loaded in order. -/
def loadBalancesForQueuedBatch (db : Database) (queuedDebit : String → Option ℤ) (ids : List String) :
    Except String (List Balance) :=
  ids.mapM fun id => match db.findBalance id with
    | some c => .ok (loadBalance c (queuedDebit id))
    | none => .error ("failed to load balance " ++ id ++ " for coalesced batch")

def persistQueuedTransactionBatch (db : Database) (ts : List Transaction) (queuedDebit : String → Option ℤ) :
    Except String Database := do
  let balances ← db.loadBalancesForQueuedBatch queuedDebit (collectQueuedCoalescingBalanceIDs ts)
  let st ← prepareQueuedBatch db.referenceExists ts balances
  db.recordTransactionsWithBalanceSet st.finalized st.balances

def tryRecordQueuedTransactionBatch (db : Database) (leader : Transaction) (siblings : List (String × String))
    (queuedDebit : String → Option ℤ) : Except String Database := do
  canCoalesceQueuedTransaction leader
  let rest ← siblings.mapM fun (id,copyID) => db.coalescingSibling id copyID
  if rest = [] then .error "skipped"
  else db.persistQueuedTransactionBatch (leader :: rest) queuedDebit

def getTransactionsByParent (db : Database) (parentID : String) (limit : ℕ) : List Row :=
  ((db.transactions.filter fun r => r.parentTransaction = parentID).reverse).take limit

def siblingRejected (db : Database) (t : Transaction) : Bool :=
  t.atomic && decide (t.queuedParent ≠ "") &&
    (db.getTransactionsByParent t.queuedParent 100).any fun sibling => sibling.status = .rejected

/-- Recovery of a stored intent without children: rejected when its amount is zero or its attempts are
exhausted, passed over when a sibling was rejected, executed as a new queue copy otherwise. -/
def processStuckTransaction (db : Database) (id copyID : String) (exhausted : Bool) (queuedDebit : Option ℤ) :
    Except String Database :=
  match db.findTransaction id with
  | none => .error ("Transaction with ID '" ++ id ++ "' not found")
  | some r =>
    if r.status = .queued ∧ db.childless id = true then do
      let t ← r.toQueuedTransaction
      let copy := t.createQueueCopy t.reference copyID
      if t.isZeroPreciseAmount || exhausted then db.rejectTransaction copy
      else if db.siblingRejected t then .ok db
      else db.processQueuedTransaction copy queuedDebit
    else .ok db

end Database
end LedgerForge
