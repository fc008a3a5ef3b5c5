import LedgerForge.Library.VersionedStore
import LedgerForge.Model.LegEffects
import LedgerForge.Numeric.RatText

/-! # The ledger tables

Balances, transactions and refund claims as the database stores them, with the lifecycle trigger
that runs before every transaction insert. Rows are never changed or deleted, so the transaction
table is a list in insertion order.
-/

namespace LedgerForge

open VersionedStore

/-- A stored transaction. The major-unit amount is kept as its numeric text. -/
structure Row where
  transactionID : String
  parentTransaction : String
  source : String
  destination : String
  reference : String
  currency : String
  amount : String
  preciseAmount : Option ℤ
  precision : ℤ
  rate : Float64
  overdraftLimit : Float64
  status : Status
  queueAction : QueueAction
  controls : ExecutionControls
deriving DecidableEq

/-- The columns of a stored balance next to its key and version. -/
structure BalanceState where
  currency : String
  counters : Counters
  balance : ℤ
  inflightBalance : ℤ
deriving DecidableEq

abbrev StoredBalance := Cell String BalanceState

/-- The claim a reversal takes on its original. -/
structure RefundClaim where
  original : String
  reversal : String
deriving DecidableEq

structure Database where
  balances : List StoredBalance
  transactions : List Row
  refundClaims : List RefundClaim
deriving DecidableEq

namespace Database

def empty : Database := ⟨[],[],[]⟩

def findBalance (db : Database) (id : String) : Option StoredBalance := lookup db.balances id

def findTransaction (db : Database) (id : String) : Option Row := Keyed.find Row.transactionID db.transactions id

/-- A new balance has zero counters and the default version. -/
def createBalance (db : Database) (id currency : String) : Database :=
  if (db.findBalance id).isSome then db
  else { db with balances := db.balances ++ [⟨id,1,⟨currency,0,0,0⟩⟩] }

def referenceExists (db : Database) (reference : String) : Bool :=
  db.transactions.any fun r => r.reference = reference

end Database

def hasRejectedChild (rows : List Row) (id : String) : Bool :=
  rows.any fun c => c.parentTransaction = id && c.status = .rejected

/-- The children that consume a hold: settlements, and queued commits that are not rejected. -/
def consumes (rows : List Row) (parentID : String) (t : Row) : Bool :=
  t.parentTransaction = parentID && (t.status = .applied || t.status = .void ||
    (t.status = .queued && t.queueAction = .commit && !hasRejectedChild rows t.transactionID))

/-- The amount of a hold that its children have consumed; absent amounts do not count. -/
def consumed (rows : List Row) (parentID : String) : ℤ :=
  ((rows.filter (consumes rows parentID)).map fun t => t.preciseAmount.getD 0).sum

def sameTerms (new parent : Row) : Bool :=
  new.source = parent.source && new.destination = parent.destination && new.precision = parent.precision &&
    new.currency = parent.currency && new.rate = parent.rate

def reversesLegs (new parent : Row) : Bool :=
  new.source = parent.destination && new.destination = parent.source && new.preciseAmount = parent.preciseAmount

def completesCommit (new parent : Row) : Bool :=
  (new.status = .applied || new.status = .rejected) && new.preciseAmount = parent.preciseAmount &&
    new.source = parent.source && new.destination = parent.destination && new.precision = parent.precision &&
    new.currency = parent.currency

def settlesHold (new : Row) : Bool := new.status = .applied || new.status = .void || new.status = .queued

/-- The remaining amount of a hold covers the new child; an absent hold amount covers anything. -/
def withinRemaining (rows : List Row) (new parent : Row) : Bool :=
  match parent.preciseAmount with
  | none => true
  | some amount => consumed rows parent.transactionID+new.preciseAmount.getD 0 ≤ amount

def claimRefund (claims : List RefundClaim) (c : RefundClaim) : Except String (List RefundClaim) :=
  if claims.any fun x => x.original = c.original then
    .error "duplicate key value violates unique constraint \"refund_claims_pkey\""
  else if claims.any fun x => x.reversal = c.reversal then
    .error "duplicate key value violates unique constraint \"refund_claims_reversal_transaction_key\""
  else .ok (claims ++ [c])

/-- A queue action is only meaningful below an inflight parent. -/
def withoutParent (claims : List RefundClaim) (new : Row) : Except String (List RefundClaim) :=
  if new.queueAction ≠ .unset then .error "Lifecycle action requires an inflight parent" else .ok claims

def claimSettlement (rows : List Row) (claims : List RefundClaim) (new parent : Row) :
    Except String (List RefundClaim) :=
  if new.status = .queued ∧ new.queueAction ≠ .commit then
    .error "Queued inflight transition requires a commit action"
  else if new.preciseAmount.getD 0 ≤ 0 ∨ sameTerms new parent = false then
    .error "Invalid inflight transition amount or legs"
  else if withinRemaining rows new parent = false then .error "Cannot commit more than the remaining amount"
  else .ok claims

/-- The trigger before every insert: the claims after it, or the exception it raises. -/
def claimTransactionLifecycle (rows : List Row) (claims : List RefundClaim) (new : Row) :
    Except String (List RefundClaim) :=
  if new.parentTransaction = "" then withoutParent claims new
  else match Keyed.find Row.transactionID rows new.parentTransaction with
    | none => withoutParent claims new
    | some parent =>
      if new.reference = parent.transactionID ++ "_refund" then
        if parent.status ≠ .applied then .error "Only APPLIED transactions can be refunded"
        else if reversesLegs new parent = false then .error "Refund must reverse the original legs"
        else claimRefund claims ⟨parent.transactionID,new.transactionID⟩
      else if parent.queueAction = .commit then
        if completesCommit new parent = false then .error "Invalid queued inflight transition"
        else if rows.any fun t => t.parentTransaction = parent.transactionID then
          .error "Queued inflight transition already processed"
        else .ok claims
      else if parent.status = .inflight ∧ settlesHold new = true then claimSettlement rows claims new parent
      else withoutParent claims new

namespace Database

/-- Insert one row: the trigger, then the unique identifiers and references and both foreign keys. -/
def insertRow (db : Database) (new : Row) : Except String Database :=
  match claimTransactionLifecycle db.transactions db.refundClaims new with
  | .error e => .error e
  | .ok claims =>
    if db.transactions.any fun r => r.transactionID = new.transactionID then
      .error "duplicate key value violates unique constraint \"transactions_transaction_id_key\""
    else if db.transactions.any fun r => r.reference = new.reference then
      .error "duplicate key value violates unique constraint \"idx_transactions_reference_unique\""
    else if (db.findBalance new.source).isNone then
      .error "insert or update on table \"transactions\" violates foreign key constraint \"fk_source_balance\""
    else if (db.findBalance new.destination).isNone then
      .error "insert or update on table \"transactions\" violates foreign key constraint \"fk_destination_balance\""
    else .ok { db with transactions := db.transactions ++ [new], refundClaims := claims }

end Database
end LedgerForge
