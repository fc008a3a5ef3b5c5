import LedgerForge.Library.Json
import LedgerForge.Library.Keyed

/-! # Execution controls and customer metadata

A transaction is stored with two JSON columns: the customer's metadata, which the metadata endpoint may change later,
and the execution controls, which nothing changes. A query hands the controls out inside the metadata object, under a
private key, and the decoder takes them out again.
-/

namespace LedgerForge.Metadata

open GoValue Json FieldCodec

abbrev Entries := List (String × GoValue)

/-- Points in time and their RFC 3339 text; only years of four digits have one. -/
structure TimeText where
  Time : Type
  zero : Time
  format : Time → Option String
  parse : String → Option Time
  parse_format : ∀ {t s}, format t = some s → parse s = some t

structure Distribution where
  identifier : String
  distribution : String
  preciseDistribution : String
  transactionID : String
deriving DecidableEq

/-- The immutable controls of a transaction. Dates are points in time, so they have no zone. -/
structure ExecutionControls (time : TimeText) where
  reservedMetadata : Option Entries
  economicVersion : ℤ
  allowOverdraft : Bool
  inflight : Bool
  atomic : Bool
  skipQueue : Bool
  skipBalanceUpdate : Bool
  parentKind : String
  queuedParent : String
  queueLane : String
  shadowFor : String
  groupIDs : Option (List String)
  sources : Option (List Distribution)
  destinations : Option (List Distribution)
  inflightExpiryDate : time.Time
  inflightCommitDate : time.Time

/-- The fields of a transaction that its controls and its metadata come from and go to. -/
structure Transaction (time : TimeText) where
  transactionID : String
  parentTransaction : String
  reservedMetadata : Option Entries
  metaData : Option Entries
  allowOverdraft : Bool
  inflight : Bool
  atomic : Bool
  skipQueue : Bool
  skipBalanceUpdate : Bool
  parentKind : String
  queuedParent : String
  queueLane : String
  shadowFor : String
  groupIds : Option (List String)
  sources : Option (List Distribution)
  destinations : Option (List Distribution)
  inflightExpiryDate : time.Time
  inflightCommitDate : time.Time

variable {time : TimeText}

def reservedKeys : List String :=
  ["LEDGERFORGE_LINEAGE_PROVIDER","_lineage_type","_provider","_main_balance","_allocation"]

namespace Transaction

def fresh (time : TimeText) : Transaction time where
  transactionID := ""
  parentTransaction := ""
  reservedMetadata := none
  metaData := none
  allowOverdraft := false
  inflight := false
  atomic := false
  skipQueue := false
  skipBalanceUpdate := false
  parentKind := ""
  queuedParent := ""
  queueLane := ""
  shadowFor := ""
  groupIds := none
  sources := none
  destinations := none
  inflightExpiryDate := time.zero
  inflightCommitDate := time.zero

/-- The stored decisions once the transaction was read, the metadata of its creation before. -/
def executionMetadata (t : Transaction time) : Option Entries :=
  if t.reservedMetadata.isSome then t.reservedMetadata else t.metaData

def executionControls (t : Transaction time) : ExecutionControls time where
  reservedMetadata := some (reservedKeys.filterMap fun key =>
    ((t.executionMetadata.getD []).lookup key).map fun value => (key,value))
  economicVersion := 1
  allowOverdraft := t.allowOverdraft
  inflight := t.inflight
  atomic := t.atomic
  skipQueue := t.skipQueue
  skipBalanceUpdate := t.skipBalanceUpdate
  parentKind := t.parentKind
  queuedParent := t.queuedParent
  queueLane := t.queueLane
  shadowFor := t.shadowFor
  groupIDs := t.groupIds
  sources := t.sources
  destinations := t.destinations
  inflightExpiryDate := t.inflightExpiryDate
  inflightCommitDate := t.inflightCommitDate

end Transaction

def ExecutionControls.apply (c : ExecutionControls time) (t : Transaction time) : Transaction time :=
  { t with
    reservedMetadata := some (c.reservedMetadata.getD [])
    allowOverdraft := c.allowOverdraft
    inflight := c.inflight
    atomic := c.atomic
    skipQueue := c.skipQueue
    skipBalanceUpdate := c.skipBalanceUpdate
    parentKind := c.parentKind
    queuedParent := c.queuedParent
    queueLane := c.queueLane
    shadowFor := c.shadowFor
    groupIds := c.groupIDs
    sources := c.sources
    destinations := c.destinations
    inflightExpiryDate := c.inflightExpiryDate
    inflightCommitDate := c.inflightCommitDate }

def timeCodec (time : TimeText) : FieldCodec time.Time where
  zero := time.zero
  write t :=
    match time.format t with
    | some s => .ok (.string s)
    | none => .error "Time.MarshalJSON: year outside of range [0,9999]"
  read
    | .string s =>
      match time.parse s with
      | some t => .ok t
      | none => .error "Time.UnmarshalJSON: cannot parse"
    | _ => .error "Time.UnmarshalJSON: input is not a JSON string"
  read_write := by
    intro t v j hv hj
    cases hf : time.format t with
    | none => simp [hf] at hv
    | some s =>
      rw [hf] at hv
      cases hv
      cases hj
      simp only [readField,time.parse_format hf]

/-- The precise distribution is left out when it is empty. -/
def Distribution.entries (d : Distribution) : Entries :=
  [("identifier",.string d.identifier),("distribution",.string d.distribution)] ++
    (if d.preciseDistribution = "" then [] else [("precise_distribution",.string d.preciseDistribution)]) ++
    [("transaction_id",.string d.transactionID)]

def Distribution.read (fields : List (String × Json)) : Except String Distribution := do
  let identifier ← string.get fields "identifier"
  let distribution ← string.get fields "distribution"
  let preciseDistribution ← string.get fields "precise_distribution"
  let transactionID ← string.get fields "transaction_id"
  return ⟨identifier,distribution,preciseDistribution,transactionID⟩

theorem Distribution.read_entries {d : Distribution} {fields : List (String × Json)}
    (h : marshalEntries d.entries = .ok fields) : Distribution.read fields = .ok d := by
  have hprecise : string.get fields "precise_distribution" = .ok d.preciseDistribution := by
    by_cases he : d.preciseDistribution = ""
    · rw [he]
      rw [FieldCodec.get,lookup_marshalEntries_none h (by simp [entries,he,List.lookup_cons])]
      rfl
    · exact string.get_of_lookup h (by simp [entries,he,List.lookup_cons]) rfl
  have hidentifier : string.get fields "identifier" = .ok d.identifier :=
    string.get_of_lookup h (by simp [entries]) rfl
  have hdistribution : string.get fields "distribution" = .ok d.distribution :=
    string.get_of_lookup h (by simp [entries,List.lookup_cons]) rfl
  have htransaction : string.get fields "transaction_id" = .ok d.transactionID := by
    refine string.get_of_lookup h ?_ rfl
    by_cases he : d.preciseDistribution = "" <;> simp [entries,he,List.lookup_cons]
  rw [read,hidentifier,hdistribution,hprecise,htransaction]
  rfl

def distributionCodec : FieldCodec Distribution where
  zero := ⟨"","","",""⟩
  write d := .ok (.map d.entries)
  read
    | .object fields => Distribution.read fields
    | _ => .error (typeError "model.Distribution")
  read_write := by
    intro d v j hv hj
    cases hv
    rw [marshal] at hj
    obtain ⟨fields,hfields,rfl⟩ := map_ok hj
    exact Distribution.read_entries hfields

namespace ExecutionControls

/-- The fields under their JSON names. The only version that is written is 1. -/
def entries (c : ExecutionControls time) : Except String Entries := do
  let reservedMetadata ← map.write c.reservedMetadata
  let groupIDs ← (slice .string).write c.groupIDs
  let sources ← (slice distributionCodec).write c.sources
  let destinations ← (slice distributionCodec).write c.destinations
  let inflightExpiryDate ← (timeCodec time).write c.inflightExpiryDate
  let inflightCommitDate ← (timeCodec time).write c.inflightCommitDate
  return [("reserved_metadata",reservedMetadata),("economic_version",.number (.ofInt c.economicVersion)),
    ("allow_overdraft",.bool c.allowOverdraft),("inflight",.bool c.inflight),("atomic",.bool c.atomic),
    ("skip_queue",.bool c.skipQueue),("skip_balance_update",.bool c.skipBalanceUpdate),
    ("parent_kind",.string c.parentKind),("queued_parent",.string c.queuedParent),("queue_lane",.string c.queueLane),
    ("shadow_for",.string c.shadowFor),("group_ids",groupIDs),("sources",sources),("destinations",destinations),
    ("inflight_expiry_date",inflightExpiryDate),("inflight_commit_date",inflightCommitDate)]

def marshal (c : ExecutionControls time) : Except String Json := do
  (GoValue.map (← c.entries)).marshal

end ExecutionControls

def readInt : Option Json → Except String ℤ :=
  readField 0 fun
    | .number q =>
      if q.den = 1 ∧ -2^63 ≤ q.num ∧ q.num < 2^63 then .ok q.num else .error (typeError "int")
    | _ => .error (typeError "int")

/-- The current schema. -/
def readCurrent (time : TimeText) (fields : List (String × Json)) : Except String (ExecutionControls time) := do
  let reservedMetadata ← map.get fields "reserved_metadata"
  let economicVersion ← readInt (fields.lookup "economic_version")
  let allowOverdraft ← bool.get fields "allow_overdraft"
  let inflight ← bool.get fields "inflight"
  let atomic ← bool.get fields "atomic"
  let skipQueue ← bool.get fields "skip_queue"
  let skipBalanceUpdate ← bool.get fields "skip_balance_update"
  let parentKind ← string.get fields "parent_kind"
  let queuedParent ← string.get fields "queued_parent"
  let queueLane ← string.get fields "queue_lane"
  let shadowFor ← string.get fields "shadow_for"
  let groupIDs ← (slice .string).get fields "group_ids"
  let sources ← (slice distributionCodec).get fields "sources"
  let destinations ← (slice distributionCodec).get fields "destinations"
  let inflightExpiryDate ← (timeCodec time).get fields "inflight_expiry_date"
  let inflightCommitDate ← (timeCodec time).get fields "inflight_commit_date"
  return { reservedMetadata, economicVersion, allowOverdraft, inflight, atomic, skipQueue, skipBalanceUpdate, parentKind,
           queuedParent, queueLane, shadowFor, groupIDs, sources, destinations, inflightExpiryDate, inflightCommitDate }

/-- A value of another type than the expected one is the zero value in the old schema. -/
def asBool : Option GoValue → Bool
  | some (.bool b) => b
  | _ => false

def asString : Option GoValue → String
  | some (.string s) => s
  | _ => ""

def asMap : Option GoValue → Option Entries
  | some (.map entries) => some entries
  | _ => none

/-- The old schema; the queue is never skipped, and only the hot lane is kept. -/
def readLegacy (time : TimeText) (legacy : Entries) : ExecutionControls time where
  reservedMetadata := asMap (legacy.lookup "reserved_metadata")
  economicVersion := 0
  allowOverdraft := asBool (legacy.lookup "allow_overdraft")
  inflight := asBool (legacy.lookup "inflight")
  atomic := asBool (legacy.lookup "atomic")
  skipQueue := false
  skipBalanceUpdate := false
  parentKind := ""
  queuedParent := asString (legacy.lookup "queued_parent")
  queueLane := if asString (legacy.lookup "queue_lane") = "hot" then "hot" else "normal"
  shadowFor := asString (legacy.lookup "shadow_for")
  groupIDs := none
  sources := none
  destinations := none
  inflightExpiryDate := time.zero
  inflightCommitDate := time.zero

def objectFields : Json → Except String (List (String × Json))
  | .object fields => .ok fields
  | .null => .ok []
  | _ => .error (typeError "model.ExecutionControls")

def decodeExecutionControls (time : TimeText) (data : Json) : Except String (ExecutionControls time) := do
  let fields ← objectFields data
  let version ← readInt (fields.lookup "economic_version")
  if version ≠ 0 then readCurrent time fields
  else return readLegacy time (← unmarshalFields fields)

def marker : String := "__execution_controls"

def decodeTransactionMetadata (data : Json) (t : Transaction time) : Except String (Transaction time) := do
  match data with
  | .null => return { t with metaData := none }
  | .object fields =>
    let metaData ← unmarshalFields fields
    match metaData.lookup marker with
    | none => return { t with metaData := some metaData }
    | some raw =>
      let c ← decodeExecutionControls time (← raw.marshal)
      return { c.apply t with metaData := some (metaData.filter fun entry => entry.1 ≠ marker) }
  | _ => .error (typeError "map[string]interface {}")

def member (j : Option Json) (key : String) : Option Json :=
  match j with
  | some (.object fields) => fields.lookup key
  | _ => none

/-- The controls of a row without the column, from the metadata in the evidence of its insertion. -/
def legacyControls (metaData : Option Json) : Json :=
  .object [("economic_version",.number 0),
    ("reserved_metadata",.object (match metaData with
      | some (.object fields) => fields.filter fun field => field.1 ∈ reservedKeys
      | _ => [])),
    ("allow_overdraft",(member metaData "allow_overdraft").getD (.bool false)),
    ("inflight",(member metaData "inflight").getD (.bool false)),
    ("atomic",(member metaData "atomic").getD (.bool false)),
    ("skip_queue",(member metaData "skip_queue").getD (.bool false)),
    ("queued_parent",(member metaData "QUEUED_PARENT_TRANSACTION").getD (.string "")),
    ("queue_lane",(member metaData "queue_lane").getD (.string "normal")),
    ("shadow_for",(member metaData "_shadow_for").getD (.string ""))]

/-- A stored transaction; a column without a value is `none`. -/
structure StoredRow where
  transactionID : String
  parentTransaction : String
  metaData : Option Json
  executionControls : Option Json

/-- The transactions, and the metadata that each insertion left in the journal. -/
structure MetadataTables where
  transactions : List StoredRow
  insertions : List (String × Option Json)

namespace MetadataTables

variable (db : MetadataTables)

def findRow (id : String) : Option StoredRow := Keyed.find StoredRow.transactionID db.transactions id

def transactionExecutionControls (id : String) (controls : Option Json) : Json :=
  match controls, db.insertions.lookup id with
  | some controls, _ => controls
  | none, some metaData => legacyControls metaData
  | none, none => .object []

/-- Metadata that is neither an object nor null is handed out as it is. -/
def transactionMetadata (row : StoredRow) : Json :=
  let controls := db.transactionExecutionControls row.transactionID row.executionControls
  match row.metaData with
  | some (.object fields) => .object (put fields marker controls)
  | none | some .null => .object (put [] marker controls)
  | some j => j

def getTransaction (time : TimeText) (id : String) : Except String (Transaction time) :=
  match db.findRow id with
  | none => .error ("Transaction with ID '" ++ id ++ "' not found")
  | some row =>
    decodeTransactionMetadata (db.transactionMetadata row)
      { Transaction.fresh time with transactionID := row.transactionID, parentTransaction := row.parentTransaction }

def recordTransaction (t : Transaction time) : Except String MetadataTables := do
  let metaDataJSON ← (match t.metaData with
    | none => .nil
    | some entries => .map entries : GoValue).marshal
  let controlsJSON ← t.executionControls.marshal
  if !(metaDataJSON.storable && controlsJSON.storable) || (db.findRow t.transactionID).isSome then
    .error "Failed to record transaction"
  else
    return { transactions := db.transactions ++
               [⟨t.transactionID,t.parentTransaction,some metaDataJSON,some controlsJSON⟩]
             insertions := db.insertions ++ [(t.transactionID,some metaDataJSON)] }

end MetadataTables

/-- Keys that a customer may not write, in lower case. -/
def protectedKeys : List String :=
  ["allow_overdraft","overdraft_limit","inflight","atomic","skip_queue","skip_balance_update","queue_action","queue_lane",
    "queue_pair_key","queued_parent_transaction","queued_parent","parent_kind","shadow_for","_shadow_for","group_ids",
    "sources","destinations","scheduled_for","inflight_expiry_date","inflight_commit_date","__execution_controls",
    "economic_version","execution_metadata","ledgerforge_lineage_provider","ledgerforge_fund_allocation","_lineage_type",
    "_provider","_main_balance","_allocation"]

def validateCustomerTransactionMetadata (lower : String → String) (metadata : Entries) : Except String Unit :=
  Results.checkAll (fun entry =>
    if lower entry.1 ∈ protectedKeys ∨ "policy_".isPrefixOf (lower entry.1) ∨ "recovery_".isPrefixOf (lower entry.1) then
      .error ("reserved transaction execution metadata key: " ++ entry.1)
    else .ok ()) metadata

/-- The patch is merged into the metadata of the transaction and of its children, as far as they are objects. -/
def StoredRow.patch (id : String) (patch : List (String × Json)) (row : StoredRow) : StoredRow :=
  if row.transactionID = id ∨ row.parentTransaction = id then
    match row.metaData with
    | some (.object fields) => { row with metaData := some (.object (merge fields patch)) }
    | _ => { row with metaData := some (.object (merge [] patch)) }
  else row

def MetadataTables.updateMetadata (lower : String → String) (db : MetadataTables) (entityID : String)
    (newMetadata : Entries) : Except String MetadataTables :=
  if "txn_".isPrefixOf entityID || "bulk_".isPrefixOf entityID then do
    validateCustomerTransactionMetadata lower newMetadata
    if db.transactions.any fun row => row.transactionID = entityID || row.parentTransaction = entityID then
      let patch ← marshalEntries newMetadata
      if storableFields patch then
        return { db with transactions := db.transactions.map (StoredRow.patch entityID patch) }
      else .error "failed to update metadata"
    else .error "entity not found"
  else return db

/-- What happens to the tables: a transaction is recorded, or metadata is written. -/
inductive MetadataEvent (time : TimeText)
  | record (t : Transaction time)
  | update (entityID : String) (newMetadata : Entries)

/-- A failed request changes nothing. -/
def MetadataTables.step (lower : String → String) (db : MetadataTables) : MetadataEvent time → MetadataTables
  | .record t => (db.recordTransaction t).toOption.getD db
  | .update id metadata => (db.updateMetadata lower id metadata).toOption.getD db

def MetadataTables.run (lower : String → String) (db : MetadataTables) (events : List (MetadataEvent time)) :
    MetadataTables := events.foldl (MetadataTables.step lower) db

end LedgerForge.Metadata
