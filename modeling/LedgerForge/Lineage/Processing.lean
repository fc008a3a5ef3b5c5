import LedgerForge.Library.Attempts

/-! # Fund lineage

Funds of a provider on a tracked balance are mirrored by shadow balances: a credit moves the amount from the provider's
shadow to the aggregate of the identity, a debit releases it again from the shadows of the providers that an allocation
strategy selects, and a tracked destination receives what was released. An outbox entry is processed by one attempt after
the other, each of which may stop at any call.
-/

namespace LedgerForge.Lineage

/-- The strategies; every other text means the first one. -/
inductive Strategy
  | fifo | lifo | proportional
deriving DecidableEq

structure LineageMapping where
  balanceID : String
  provider : String
  shadowBalanceID : String
  aggregateBalanceID : String
  identityID : String
  createdAt : ℤ
deriving DecidableEq

structure LineageSource where
  balanceID : String
  balance : ℤ
  createdAt : ℤ
deriving DecidableEq

structure Allocation where
  balanceID : String
  amount : ℤ
deriving DecidableEq

def sequentialAllocation : List LineageSource → ℤ → List Allocation
  | [], _ => []
  | source :: sources, remaining =>
    if remaining ≤ 0 then []
    else
      let alloc := if remaining ≤ source.balance then remaining else source.balance
      if alloc ≤ 0 then sequentialAllocation sources remaining
      else ⟨source.balanceID,alloc⟩ :: sequentialAllocation sources (remaining-alloc)

/-- The shares of all sources but the last one are rounded down, and the last one takes the rest. -/
def proportionalShares (effective total : ℤ) : List LineageSource → ℤ → List Allocation
  | [], _ => []
  | source :: sources, remaining =>
    let share := if sources = [] then remaining else effective*source.balance/total
    let alloc := min share source.balance
    if alloc ≤ 0 then proportionalShares effective total sources remaining
    else ⟨source.balanceID,alloc⟩ :: proportionalShares effective total sources (remaining-alloc)

def proportionalAllocation (sources : List LineageSource) (amount : ℤ) : List Allocation :=
  let total := (sources.map LineageSource.balance).sum
  if amount ≤ 0 ∨ total = 0 then [] else proportionalShares (min amount total) total sources (min amount total)

def calculateAllocation (sources : List LineageSource) (amount : ℤ) : Strategy → List Allocation
  | .lifo => sequentialAllocation (sources.insertionSort fun a b => b.createdAt ≤ a.createdAt) amount
  | .proportional => proportionalAllocation sources amount
  | .fifo => sequentialAllocation (sources.insertionSort fun a b => a.createdAt ≤ b.createdAt) amount

def findMappingByShadowID (mappings : List LineageMapping) (shadowBalanceID : String) : Option LineageMapping :=
  mappings.find? fun m => m.shadowBalanceID = shadowBalanceID

inductive LineageType
  | credit | release | receive
deriving DecidableEq

structure ShadowTransaction where
  lineageType : LineageType
  provider : String
  source : String
  destination : String
  amount : ℤ
  reference : String
  shadowFor : String
  inflight : Bool
deriving DecidableEq

/-- The shadow transactions, and what was debited from and credited to the shadow and aggregate balances by posted ones. -/
structure ShadowLedger where
  transactions : List ShadowTransaction
  debitBalance : String → ℤ
  creditBalance : String → ℤ

namespace ShadowLedger

def referenceExists (l : ShadowLedger) (reference : String) : Bool := l.transactions.any fun t => t.reference = reference

def findReference (l : ShadowLedger) (reference : String) : Option ShadowTransaction :=
  l.transactions.find? fun t => t.reference = reference

/-- A hold does not change the balances. -/
def post (l : ShadowLedger) (t : ShadowTransaction) : ShadowLedger where
  transactions := l.transactions ++ [t]
  debitBalance := if t.inflight then l.debitBalance
    else Function.update l.debitBalance t.source (l.debitBalance t.source+t.amount)
  creditBalance := if t.inflight then l.creditBalance
    else Function.update l.creditBalance t.destination (l.creditBalance t.destination+t.amount)

end ShadowLedger

structure LineageState where
  ledger : ShadowLedger
  mappings : List LineageMapping

namespace LineageState

def getLineageMappings (s : LineageState) (balanceID : String) : List LineageMapping :=
  (s.mappings.filter fun m => m.balanceID = balanceID).insertionSort fun a b => a.createdAt ≤ b.createdAt

def upsertLineageMapping (s : LineageState) (m : LineageMapping) : LineageState :=
  if s.mappings.any fun old => old.balanceID = m.balanceID ∧ old.provider = m.provider then
    { s with mappings := s.mappings.map fun old =>
        if old.balanceID = m.balanceID ∧ old.provider = m.provider then
          { old with shadowBalanceID := m.shadowBalanceID, aggregateBalanceID := m.aggregateBalanceID }
        else old }
  else { s with mappings := s.mappings ++ [m] }

end LineageState

def ShadowLedger.source (l : ShadowLedger) (m : LineageMapping) : Option LineageSource :=
  let available := l.debitBalance m.shadowBalanceID-l.creditBalance m.shadowBalanceID
  if 0 < l.debitBalance m.shadowBalanceID ∧ 0 < available then some ⟨m.shadowBalanceID,available,m.createdAt⟩ else none

def ShadowLedger.getLineageSources (l : ShadowLedger) (mappings : List LineageMapping) : List LineageSource :=
  mappings.filterMap l.source

structure TrackedBalance where
  balanceID : String
  currency : String
  identityID : String
  trackFundLineage : Bool
  allocationStrategy : Strategy
deriving DecidableEq

/-- An outbox entry with its transaction and balances; a transaction without a provider has the empty one. -/
structure LineageEntry where
  transactionID : String
  reference : String
  currency : String
  preciseAmount : ℤ
  inflight : Bool
  provider : String
  source : Option TrackedBalance
  destination : Option TrackedBalance
deriving DecidableEq

/-- The other components: the text that stands for an identity, the balance of an indicator and a currency, and the
checks of the ledger when a transaction is posted. -/
structure Directory where
  identifier : String → Option String
  balance : String → String → String
  refuses : ShadowLedger → ShadowTransaction → Option String

/-- What goes wrong in an attempt: the number of calls after which it stops, and the failures that are only logged. -/
structure Faults where
  calls : Option ℕ
  sourceUnread : Bool
  destinationUnread : Bool
  pendingUnread : Bool
  unprepared : Bool
  mappingLost : Bool
  /-- Whether credits for the source are still pending, and the time of the attempt. -/
  pendingCredit : Bool
  now : ℤ
deriving DecidableEq

def Faults.none (now : ℤ) : Faults := ⟨.none,false,false,false,false,false,false,now⟩

abbrev Step := Attempt LineageState

open Attempt

variable (d : Directory) (e : LineageEntry) (f : Faults)

def shadowReference (reference provider : String) : String := reference ++ "_shadow_" ++ provider

def releaseReference (parentRef provider : String) : String := parentRef ++ "_release_" ++ provider

def receiveReference (parentRef provider : String) : String := parentRef ++ "_receive_" ++ provider

/-- Post a shadow transaction; a reference is used only once. -/
def queueTransaction (t : ShadowTransaction) : Step Unit := do
  call
  let s ← read
  if s.ledger.referenceExists t.reference then fail ("reference " ++ t.reference ++ " has already been used")
  else match d.refuses s.ledger t with
    | some message => fail message
    | none => write fun s => { s with ledger := s.ledger.post t }

def lineageBalances (identityID provider currency : String) : Option (String × String) :=
  (d.identifier identityID).map fun identifier =>
    (d.balance ("@" ++ provider ++ "_" ++ identifier ++ "_lineage") currency,
      d.balance ("@" ++ identifier ++ "_lineage") currency)

def validateLineageProvider (source : Option TrackedBalance) : Step String :=
  match source with
  | some source =>
    if e.provider = "" ∨ !source.trackFundLineage then return e.provider
    else do
      call
      let s ← read
      return if s.mappings.any fun m => m.balanceID = source.balanceID ∧ m.provider = e.provider then e.provider else ""
  | none => return e.provider

def shadowCredit (provider shadow aggregate : String) : ShadowTransaction :=
  ⟨.credit,provider,shadow,aggregate,e.preciseAmount,shadowReference e.reference provider,e.transactionID,e.inflight⟩

def processLineageCredit (destination : TrackedBalance) (provider : String) : Step Unit :=
  if destination.identityID = "" then
    fail ("destination balance " ++ destination.balanceID ++ " has no identity_id for lineage tracking")
  else do
    call
    match lineageBalances d destination.identityID provider e.currency with
    | none => fail ("failed to get identity " ++ destination.identityID)
    | some (shadow,aggregate) => do
      -- the locks on both balances
      call
      annotate "failed to queue shadow credit transaction" (queueTransaction d (shadowCredit e provider shadow aggregate))
      -- an error of the mapping is only logged
      if f.mappingLost then return ()
      else
        let mapping : LineageMapping := ⟨destination.balanceID,provider,shadow,aggregate,destination.identityID,f.now⟩
        write fun s => s.upsertLineageMapping mapping

/-- The amount of the debit without the releases that are already stored. -/
def remainingDebitAmount (l : ShadowLedger) (mappings : List LineageMapping) : ℤ :=
  e.preciseAmount - (mappings.map fun m =>
    ((l.findReference (releaseReference e.reference m.provider)).map ShadowTransaction.amount).getD 0).sum

def release (m : LineageMapping) (alloc : Allocation) (sourceAggregate : String) : ShadowTransaction :=
  ⟨.release,m.provider,sourceAggregate,alloc.balanceID,alloc.amount,releaseReference e.reference m.provider,
    e.transactionID,e.inflight⟩

def receive (m : LineageMapping) (alloc : Allocation) (shadow aggregate : String) : ShadowTransaction :=
  ⟨.receive,m.provider,shadow,aggregate,alloc.amount,receiveReference e.reference m.provider,e.transactionID,e.inflight⟩

/-- The destination and the balances that receive for it, if it tracks lineage. Without them nothing is received: an error
of their preparation is only logged. -/
abbrev Receiver := Option (TrackedBalance × (String → String × String))

def prepareDestination (destination : Option TrackedBalance) : Receiver :=
  match destination with
  | some destination =>
    if !destination.trackFundLineage ∨ destination.identityID = "" ∨ f.unprepared then none
    else match d.identifier destination.identityID with
      | none => none
      | some _ => some (destination,fun provider =>
          (lineageBalances d destination.identityID provider destination.currency).getD ("",""))
  | none => none

def processDestinationLineage (m : LineageMapping) (alloc : Allocation) (receiver : Receiver) : Step Unit :=
  match receiver with
  | none => return ()
  | some (destination,balances) => do
    let (shadow,aggregate) := balances m.provider
    annotate "failed to queue receive transaction" (queueTransaction d (receive e m alloc shadow aggregate))
    call
    let mapping : LineageMapping := ⟨destination.balanceID,m.provider,shadow,aggregate,destination.identityID,f.now⟩
    write fun s => s.upsertLineageMapping mapping

/-- One allocation: a release that is already stored is skipped together with its receipt. -/
def processAllocation (mappings : List LineageMapping) (sourceAggregate : String) (receiver : Receiver)
    (alloc : Allocation) : Step Unit :=
  if alloc.amount = 0 then return ()
  else match findMappingByShadowID mappings alloc.balanceID with
    | none => return ()
    | some m => do
      call
      let s ← read
      if s.ledger.referenceExists (releaseReference e.reference m.provider) then return ()
      else do
        annotate "failed to queue release transaction" (queueTransaction d (release e m alloc sourceAggregate))
        annotate "failed to process destination lineage" (processDestinationLineage d e f m alloc receiver)

def processAllocations (mappings : List LineageMapping) (sourceAggregate : String) (receiver : Receiver) :
    List Allocation → Step Unit
  | [] => return ()
  | alloc :: allocations => do
    processAllocation d e f mappings sourceAggregate receiver alloc
    processAllocations mappings sourceAggregate receiver allocations

def processLineageDebit (source : TrackedBalance) (destination : Option TrackedBalance) : Step Unit := do
  call
  let s ← read
  let mappings := s.getLineageMappings source.balanceID
  if mappings = [] then
    if f.pendingCredit ∧ !f.pendingUnread then
      fail ("pending credit outbox entries exist for balance " ++ source.balanceID ++ ", retry later")
    else return ()
  else do
    let receiver := prepareDestination d f destination
    -- the locks on all balances, the balances, and the releases that are already stored
    call
    call
    call
    let remaining := remainingDebitAmount e s.ledger mappings
    if remaining ≤ 0 then return ()
    else do
      let allocations := calculateAllocation (s.ledger.getLineageSources mappings) remaining source.allocationStrategy
      call
      match d.identifier source.identityID with
      | none => fail "failed to get source identity"
      | some identifier =>
        processAllocations d e f mappings (d.balance ("@" ++ identifier ++ "_lineage") source.currency) receiver allocations

def creditDestination (destination : Option TrackedBalance) (provider : String) : Step Unit :=
  match destination with
  | some destination =>
    if provider ≠ "" ∧ destination.trackFundLineage then
      annotate "lineage credit processing failed" (processLineageCredit d e f destination provider)
    else return ()
  | none => return ()

/-- The debit of `processLineage`, which needs no provider. -/
def debitSource (source destination : Option TrackedBalance) : Step Unit :=
  match source with
  | some source =>
    if source.trackFundLineage then
      annotate "lineage debit processing failed" (processLineageDebit d e f source destination)
    else return ()
  | none => return ()

/-- The credit comes first: a debit allocates from the shadow balances that credits create. -/
def processLineage (source destination : Option TrackedBalance) : Step Unit := do
  let validated ← annotate "lineage provider validation failed" (validateLineageProvider e source)
  creditDestination d e f destination validated
  debitSource d e f source destination

/-- Process an entry and mark it as completed. A balance that cannot be read counts as absent. -/
def processLineageFromOutbox : Step Unit := do
  call
  processLineage d e f (if f.sourceUnread then none else e.source) (if f.destinationUnread then none else e.destination)
  call

def attempt (s : LineageState) : Except String Unit × LineageState := (processLineageFromOutbox d e f).run s f.calls

end LedgerForge.Lineage
