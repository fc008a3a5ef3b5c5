import LedgerForge.Engine.Recording

/-! # Committing and voiding holds

The entry points that settle or release a hold, synchronously or through the queue. The remaining
amount is computed from the stored children by a query of its own, separately from the trigger.
-/

namespace LedgerForge

/-- A transaction that commit and void accept: a hold, or an intent that will become one. -/
def Transaction.isInflightTransaction (t : Transaction) : Bool :=
  t.status = .inflight || (t.status = .queued && t.inflight)

def bigFloatQuo (bits : ℕ) (a b : ℚ) : ℚ :=
  let q := a/b
  let ulp := Binary64.twoPow (Int.log 2 |q|-bits+1)
  Binary64.roundHalfEven (q/ulp)*ulp

/-- Minor units in major units; the quotient is rounded to the width of the amount and then to a double. -/
def convertPreciseToFloat (amount : ℤ) (precision : Float64) : Float64 :=
  Float64.ofRat (bigFloatQuo (max 64 (Nat.size amount.natAbs)) amount precision.decimal.value)

namespace Database

def isParentTransactionVoid (db : Database) (id : String) : Bool :=
  db.transactions.any fun r => r.parentTransaction = id && r.status = .void

/-- The children that count against a hold: settlements, and queued commits without a rejected child. -/
def committedChildren (db : Database) (parentID : String) : List Row :=
  db.transactions.filter fun r => r.parentTransaction = parentID && (r.status = .applied || r.status = .void ||
    (r.status = .queued && r.queueAction = .commit &&
      !db.transactions.any fun child => child.parentTransaction = r.transactionID && child.status = .rejected))

/-- The sum over those children: zero without children, and an error when no child has an amount. -/
def getTotalCommittedTransactions (db : Database) (parentID : String) : Except String ℤ :=
  let children := db.committedChildren parentID
  if children = [] then .ok 0
  else if children.all fun r => r.preciseAmount.isNone then .error "Failed to get total committed transactions"
  else .ok (children.map fun r => r.preciseAmount.getD 0).sum

def calculateRemainingAmount (db : Database) (t : Transaction) : Except String ℤ :=
  match db.getTotalCommittedTransactions t.transactionID with
  | .ok committed => .ok (t.preciseAmount.getD 0-committed)
  | .error e => .error ("error fetching committed amount: " ++ e)

def fetchAndValidateInflightTransaction (db : Database) (id : String) : Except String Transaction := do
  let t ← db.getTransaction id
  if !t.isInflightTransaction then .error "transaction is not in inflight status"
  else if db.isParentTransactionVoid id then .error "transaction has already been voided"
  else .ok t

/-- The amount of a commit request: zero asks for the whole remainder. -/
def validateRequestedAmount (t : Transaction) (amount : Option ℤ) (left : ℤ) : Except String ℤ :=
  match amount with
  | none => .error "commit amount is required"
  | some a =>
    if a < 0 then .error "commit amount cannot be negative"
    else if a = 0 then .ok 0
    else if t.preciseAmount.getD 0 < a then
      .error ("cannot commit more than the original transaction amount. Original: " ++ t.currency ++ t.amount.fixed2 ++
        ", Requested: " ++ t.currency ++ (convertPreciseToFloat a t.precision).fixed2)
    else if left < a then
      .error ("cannot commit more than the remaining amount. Available: " ++ t.currency ++
        (convertPreciseToFloat left t.precision).fixed2 ++ ", Requested: " ++ t.currency ++
        (convertPreciseToFloat a t.precision).fixed2)
    else .ok a

def updateTransactionAmount (t : Transaction) (amount left : ℤ) : Transaction :=
  if amount ≠ 0 then { t with preciseAmount := some amount }
  else { t with amount := convertPreciseToFloat left t.precision, preciseAmount := some left }

def validateAndUpdateAmount (db : Database) (t : Transaction) (amount : Option ℤ) : Except String Transaction := do
  let left ← db.calculateRemainingAmount t
  if left ≤ 0 then .error "cannot commit: transaction already committed"
  else do
    let requested ← validateRequestedAmount t amount left
    .ok (updateTransactionAmount t requested left)

def commitment (t : Transaction) (newID reference : String) : Transaction :=
  { t with status := .commit, queueAction := .commit, inflight := false, parentTransaction := t.transactionID,
           parentKind := .economic, transactionID := newID, reference := reference }

def commitInflightTransaction (db : Database) (id : String) (amount : Option ℤ) (newID reference : String)
    (queuedDebit : Option ℤ) : Except String Database := do
  let t ← db.fetchAndValidateInflightTransaction id
  let t ← db.validateAndUpdateAmount t amount
  db.recordTransactionSingle (commitment t newID reference) false queuedDebit

def pendingCommitment (t : Transaction) (newID reference : String) : Transaction :=
  { commitment t newID reference with status := .queued }.clearTerminalInflightMetadata

/-- The intent of a queued commit as it is stored. -/
def queuedCommitment (t : Transaction) (newID reference : String) : Transaction :=
  (pendingCommitment t newID reference).applyPrecision.2

def commitInflightTransactionWithQueue (db : Database) (id : String) (amount : Option ℤ)
    (newID reference copyID : String) : Except String (Database × List Transaction) := do
  let t ← db.fetchAndValidateInflightTransaction id
  let t ← db.validateAndUpdateAmount t amount
  let intent := queuedCommitment t newID reference
  let db ← db.recordTransaction intent
  .ok (db,(intent.createQueueCopy intent.reference copyID).message)

def voiding (t : Transaction) (left : ℤ) (newID reference : String) : Transaction :=
  { t with status := .void, inflight := false, preciseAmount := some left, parentTransaction := t.transactionID,
           parentKind := .economic, transactionID := newID, reference := reference }

def voidInflightTransaction (db : Database) (id newID reference : String) (queuedDebit : Option ℤ) :
    Except String Database := do
  let t ← db.fetchAndValidateInflightTransaction id
  let left ← db.calculateRemainingAmount t
  if left ≤ 0 then .error "cannot void: transaction already committed"
  else db.recordTransactionSingle (voiding t left newID reference).applyPrecision.2 false queuedDebit

end Database
end LedgerForge
