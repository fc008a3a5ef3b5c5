import LedgerForge.Engine.Inflight

/-! # Requests and runs of the engine

Postings, splits, bulk members and refunds enter through one queueing function that either executes
at once or stores an intent and a queue copy. A run is a list of operations; a refused operation leaves the
engine as it was. Generated identifiers come with the operation and must be unused.
-/

namespace LedgerForge

/-- What a client chooses about a posting. -/
structure Request where
  source : String
  destination : String
  reference : String
  currency : String
  amount : Float64
  amountString : String
  preciseAmount : Option ℤ
  precision : Float64
  rate : Float64
  overdraftLimit : Float64
  allowOverdraft : Bool
  inflight : Bool
  skipQueue : Bool
  atomic : Bool
  scheduled : Bool
deriving DecidableEq

def Request.transaction (r : Request) (group : Option String) : Transaction where
  transactionID := ""
  parentTransaction := group.getD ""
  parentKind := if group.isSome then .group else .unset
  queuedParent := ""
  source := r.source
  destination := r.destination
  reference := r.reference
  currency := r.currency
  amount := r.amount
  amountString := r.amountString
  preciseAmount := r.preciseAmount
  precision := r.precision
  rate := r.rate
  overdraftLimit := r.overdraftLimit
  status := .other ""
  queueAction := .unset
  allowOverdraft := r.allowOverdraft
  inflight := r.inflight
  skipQueue := r.skipQueue
  atomic := r.atomic
  scheduled := r.scheduled

/-- One leg of a split: its endpoints, its reference and its share of the amount, which is never negative. -/
structure SplitLeg where
  source : String
  destination : String
  reference : String
  amount : ℕ
deriving DecidableEq

def Transaction.splitLeg (t : Transaction) (leg : SplitLeg) (legID : String) : Transaction :=
  { t with transactionID := legID, parentTransaction := t.transactionID, parentKind := .group, source := leg.source,
           destination := leg.destination, reference := leg.reference,
           preciseAmount := some leg.amount }.convertPreciseToDecimal

def prepareRefundTransaction (t : Transaction) (skipQueue : Bool) (newID : String) : Transaction :=
  { t with transactionID := newID, reference := t.transactionID ++ "_refund", parentTransaction := t.transactionID,
           parentKind := .economic, source := t.destination, destination := t.source, allowOverdraft := true,
           skipQueue := skipQueue, status := .other "", inflight := false, queueAction := .unset,
           overdraftLimit := Float64.ofInt 0, scheduled := false }

/-- The stored tables and the messages handed to workers. Messages are never removed, since delivery is
at least once. -/
structure Engine where
  database : Database
  queue : List Transaction
deriving DecidableEq

namespace Engine

def empty : Engine := ⟨.empty,[]⟩

def processSingleTransaction (e : Engine) (t : Transaction) (copyID : String) : Except String Engine :=
  let t := t.setTransactionStatus.setTransactionMetadata ""
  if (e.database.findBalance t.source).isNone || (e.database.findBalance t.destination).isNone then
    .error "failed to get source/destination balances"
  else do
    let db ← e.database.recordTransaction t
    .ok ⟨db,e.queue ++ (t.createQueueCopy t.reference copyID).message⟩

/-- Members of a bulk group are found again through the group, everything else through itself. -/
def queuedParentOf (t : Transaction) : String :=
  if "bulk".toList <:+: t.parentTransaction.toList then t.parentTransaction else t.transactionID

def queueTransaction (e : Engine) (t : Transaction) (newID copyID : String) (queuedDebit : Option ℤ) :
    Except String Engine := do
  t.validateAmount
  let t := (t.setTransactionMetadata newID).setTransactionStatus
  if t.skipQueue then do
    let db ← e.database.recordTransactionSingle t false queuedDebit
    .ok { e with database := db }
  else e.processSingleTransaction { t with queuedParent := queuedParentOf t } copyID

/-- Record or queue one leg of a split; the split itself has no row. -/
def processSplitLeg (e : Engine) (t : Transaction) (leg : SplitLeg) (splitID legID copyID : String)
    (queuedDebit : Option ℤ) : Except String Engine := do
  t.validateAmount
  let t := ((t.setTransactionMetadata splitID).setTransactionStatus).splitLeg leg legID
  if t.skipQueue then do
    let db ← e.database.recordTransactionSingle t.setTransactionStatus false queuedDebit
    .ok { e with database := db }
  else e.processSingleTransaction t copyID

def isTransactionRefunded (e : Engine) (t : Transaction) : Bool :=
  e.database.transactions.any fun r =>
    r.parentTransaction = t.transactionID && r.source = t.destination && r.destination = t.source

def refundTransaction (e : Engine) (id : String) (skipQueue : Bool) (newID copyID : String) (queuedDebit : Option ℤ) :
    Except String Engine := do
  let t ← e.database.getTransaction id
  if t.status ≠ .applied then
    .error ("transaction " ++ id ++ " cannot be refunded in status " ++ t.status.text ++ " (only APPLIED)")
  else if e.isTransactionRefunded t then .error ("transaction " ++ id ++ " has already been refunded")
  else e.queueTransaction (prepareRefundTransaction t skipQueue newID) newID copyID queuedDebit

/-- A refund whose check for earlier refunds was answered at some time before, as when its lock has expired since. -/
def refundAnswered (e : Engine) (refunded : Transaction → Bool) (id : String) (skipQueue : Bool) (newID copyID : String)
    (queuedDebit : Option ℤ) : Except String Engine := do
  let t ← e.database.getTransaction id
  if t.status ≠ .applied then
    .error ("transaction " ++ id ++ " cannot be refunded in status " ++ t.status.text ++ " (only APPLIED)")
  else if refunded t then .error ("transaction " ++ id ++ " has already been refunded")
  else e.queueTransaction (prepareRefundTransaction t skipQueue newID) newID copyID queuedDebit

def usedIDs (e : Engine) : List String :=
  (e.database.transactions.flatMap fun r => [r.transactionID,r.parentTransaction,r.controls.queuedParent]) ++
    e.queue.flatMap fun t => [t.transactionID,t.parentTransaction,t.queuedParent]

def isUUIDChar (c : Char) : Bool := c.isDigit || c ∈ ['a','b','c','d','e','f','-']

def isTransactionID (id : String) : Bool :=
  "txn_".toList <+: id.toList && (id.toList.drop 4).all isUUIDChar

/-- Generated identifiers are well formed, distinct and not used so far. -/
def freshIDs (e : Engine) (ids : List String) : Bool :=
  ids.Nodup && ids.all fun id => isTransactionID id && !(id ∈ e.usedIDs)

def groupAllowed (e : Engine) (ids : List String) (group : String) : Bool :=
  group ≠ "" && !(group ∈ ids) && (e.database.findTransaction group).isNone &&
    e.queue.all fun t => t.transactionID ≠ group

/-- One operation with the identifiers it generates. Workers and recovery act on stored messages and
rows at any time; a client commits, voids or refunds any identifier. -/
inductive Operation
  | createBalance (id currency : String)
  | post (request : Request) (group : Option String) (newID copyID : String) (queuedDebit : Option ℤ)
  | postLeg (request : Request) (leg : SplitLeg) (splitID legID copyID : String) (queuedDebit : Option ℤ)
  | work (message : ℕ) (queuedDebit : Option ℤ)
  | workBatch (message : ℕ) (siblings : List (String × String)) (queuedDebit : String → Option ℤ)
  | reject (message : ℕ)
  | recover (id copyID : String) (exhausted : Bool) (queuedDebit : Option ℤ)
  | commit (id : String) (amount : Option ℤ) (reference newID : String) (queuedDebit : Option ℤ)
  | commitQueued (id : String) (amount : Option ℤ) (reference newID copyID : String)
  | void (id reference newID : String) (queuedDebit : Option ℤ)
  | refund (id : String) (skipQueue : Bool) (newID copyID : String) (queuedDebit : Option ℤ)

def Operation.newIDs : Operation → List String
  | .post _ _ newID copyID _ => [newID,copyID]
  | .postLeg _ _ _ legID copyID _ => [legID,copyID]
  | .workBatch _ siblings _ => siblings.map Prod.snd
  | .recover _ copyID _ _ => [copyID]
  | .commit _ _ _ newID _ => [newID]
  | .commitQueued _ _ _ newID copyID => [newID,copyID]
  | .void _ _ newID _ => [newID]
  | .refund _ _ newID copyID _ => [newID,copyID]
  | _ => []

def Operation.group : Operation → Option String
  | .post _ group _ _ _ => group
  | .postLeg _ _ splitID _ _ _ => some splitID
  | _ => none

def withDatabase (e : Engine) (r : Except String Database) : Except String Engine :=
  r.map fun db => { e with database := db }

def onMessage (e : Engine) (i : ℕ) (f : Transaction → Except String Database) : Except String Engine :=
  match e.queue[i]? with
  | some t => e.withDatabase (f t)
  | none => .error "task not found"

def perform (e : Engine) : Operation → Except String Engine
  | .createBalance id currency => .ok { e with database := e.database.createBalance id currency }
  | .post request group newID copyID queuedDebit =>
    e.queueTransaction (request.transaction group) newID copyID queuedDebit
  | .postLeg request leg splitID legID copyID queuedDebit =>
    e.processSplitLeg (request.transaction none) leg splitID legID copyID queuedDebit
  | .work i queuedDebit => e.onMessage i fun t => e.database.processQueuedTransaction t queuedDebit
  | .workBatch i siblings queuedDebit =>
    e.onMessage i fun t => e.database.tryRecordQueuedTransactionBatch t siblings queuedDebit
  | .reject i => e.onMessage i e.database.handleTransactionRejection
  | .recover id copyID exhausted queuedDebit =>
    e.withDatabase (e.database.processStuckTransaction id copyID exhausted queuedDebit)
  | .commit id amount reference newID queuedDebit =>
    e.withDatabase (e.database.commitInflightTransaction id amount newID reference queuedDebit)
  | .commitQueued id amount reference newID copyID =>
    (e.database.commitInflightTransactionWithQueue id amount newID reference copyID).map fun (db,message) =>
      ⟨db,e.queue ++ message⟩
  | .void id reference newID queuedDebit =>
    e.withDatabase (e.database.voidInflightTransaction id newID reference queuedDebit)
  | .refund id skipQueue newID copyID queuedDebit => e.refundTransaction id skipQueue newID copyID queuedDebit

/-- Identifiers are generated fresh; a group identifier is not one of a row. -/
def admissible (e : Engine) (op : Operation) : Bool :=
  e.freshIDs op.newIDs && match op.group with
    | some group => e.groupAllowed op.newIDs group
    | none => true

def step (e : Engine) (op : Operation) : Engine :=
  if e.admissible op then match e.perform op with
    | .ok e' => e'
    | .error _ => e
  else e

def run (ops : List Operation) : Engine := ops.foldl step empty

end Engine
end LedgerForge
