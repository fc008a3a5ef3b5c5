import LedgerForge.Library.Entries
import LedgerForge.Library.EventRuns
import LedgerForge.Reconciliation.Datasource

/-! # Importing a CSV file

One goroutine reads the rows and hands them to workers through a channel. A worker parses its rows and stores them in
batches. All of them report errors on one channel, which has as much room as there are workers and is read only after all
workers have returned.
-/

namespace LedgerForge.Files

open Relation
open Reconciliation (ExternalTransaction)

/-- Texts as the standard library reads them. A number or a time that cannot be read is the zero value. -/
structure TextReaders where
  trimSpace : String → String
  toLower : String → String
  parseFloat : String → Float64
  parseTime : String → ℤ

abbrev ColumnMap := List (String × ℕ)

def createColumnMap (texts : TextReaders) (headers : List String) : Except String ColumnMap :=
  let columnMap := headers.zipIdx.foldl (fun m p => Entries.put m (texts.toLower (texts.trimSpace p.1)) p.2) []
  match ["ID","Amount","Date"].find? fun col => (columnMap.lookup (texts.toLower col)).isNone with
  | some col => .error ("required column '" ++ col ++ "' not found in CSV")
  | none => .ok columnMap

def getRequiredField (texts : TextReaders) (record : List String) (columnMap : ColumnMap) (field : String) : Except String String :=
  match (columnMap.lookup field).bind (record[·]?) with
  | some text =>
    let value := texts.trimSpace text
    if value = "" then .error ("required field '" ++ field ++ "' is empty") else .ok value
  | none => .error ("required field '" ++ field ++ "' not found in record")

def parseExternalTransaction (texts : TextReaders) (columnMap : ColumnMap) (source : String) (record : List String) :
    Except String ExternalTransaction := do
  if record.length ≠ columnMap.length then .error "incorrect number of fields in record"
  let id ← getRequiredField texts record columnMap "id"
  let amount ← getRequiredField texts record columnMap "amount"
  let currency ← getRequiredField texts record columnMap "currency"
  let reference ← getRequiredField texts record columnMap "reference"
  let description ← getRequiredField texts record columnMap "description"
  let date ← getRequiredField texts record columnMap "date"
  return ⟨id,texts.parseFloat amount,reference,currency,description,texts.parseTime date,source⟩

def defaultBatchSize : ℕ := 500

def defaultChannelSize : ℕ := 1000

def contextCheckInterval : ℕ := 100

/-- An import: what the reader of the standard library returns for each row before the end of the file, and what can go
wrong around it. -/
structure CsvImport where
  rows : List (Except String (List String))
  texts : TextReaders
  columnMap : ColumnMap
  source : String
  workerCount : ℕ
  storeFails : Bool
  cancellable : Bool
  workers_pos : 0 < workerCount

def CsvImport.parse (m : CsvImport) (record : List String) : Except String ExternalTransaction :=
  parseExternalTransaction m.texts m.columnMap m.source record

/-- Where the goroutine that reads the file stands. -/
inductive Reader
  | reading (rest : List (Except String (List String))) (rowNum : ℕ)
  /-- Waits for room in the channel of rows, or for the end of the context. -/
  | sending (record : List String) (rest : List (Except String (List String))) (rowNum : ℕ)
  | reporting (err : String) (rest : List (Except String (List String))) (rowNum : ℕ)
  | done

/-- Where a worker stands. -/
inductive Worker
  | waiting (batch : List ExternalTransaction) (processCount : ℕ)
  | checking (record : List String) (batch : List ExternalTransaction) (processCount : ℕ)
  /-- Stores what is left of a batch, after which it returns if the batch is its last one. -/
  | storing (rest batch : List ExternalTransaction) (processCount : ℕ) (last : Bool)
  | reporting (err : String) (next : Worker)
  | advancing (batch : List ExternalTransaction) (processCount : ℕ)
  | returned

/-- What a step of a goroutine does outside of it. -/
inductive Effect
  | skip
  | send (record : List String)
  | closeRows
  | receive (record : List String)
  /-- Finds the channel of rows closed and empty. -/
  | drained
  | report (err : String)
  | store (txn : ExternalTransaction)
  | count (n : ℕ)

inductive ReaderStep (cancelled : Bool) : Reader → Effect → Reader → Prop
  | read (record : List String) (rest : List (Except String (List String))) (rowNum : ℕ) :
      ReaderStep cancelled (.reading (.ok record :: rest) rowNum) .skip (.sending record rest (rowNum+1))
  | unreadable (err : String) (rest : List (Except String (List String))) (rowNum : ℕ) :
      ReaderStep cancelled (.reading (.error err :: rest) rowNum) .skip
        (.reporting ("error reading row " ++ toString rowNum ++ ": " ++ err) rest rowNum)
  | eof (rowNum : ℕ) : ReaderStep cancelled (.reading [] rowNum) .closeRows .done
  | send (record : List String) (rest : List (Except String (List String))) (rowNum : ℕ) :
      ReaderStep cancelled (.sending record rest rowNum) (.send record) (.reading rest rowNum)
  | cancel (record : List String) (rest : List (Except String (List String))) (rowNum : ℕ) (h : cancelled = true) :
      ReaderStep cancelled (.sending record rest rowNum) .closeRows .done
  | report (err : String) (rest : List (Except String (List String))) (rowNum : ℕ) :
      ReaderStep cancelled (.reporting err rest rowNum) (.report err) (.reading rest rowNum)

def Worker.afterBatch (processCount : ℕ) (last : Bool) : Worker := if last then .returned else .advancing [] processCount

inductive WorkerStep (m : CsvImport) (cancelled : Bool) : Worker → Effect → Worker → Prop
  | receive (record : List String) (batch : List ExternalTransaction) (processCount : ℕ) :
      WorkerStep m cancelled (.waiting batch processCount) (.receive record) (.checking record batch processCount)
  | finish (processCount : ℕ) : WorkerStep m cancelled (.waiting [] processCount) .drained .returned
  | flush (batch : List ExternalTransaction) (processCount : ℕ) (h : batch ≠ []) :
      WorkerStep m cancelled (.waiting batch processCount) .drained (.storing batch batch processCount true)
  | cancel (record : List String) (batch : List ExternalTransaction) (processCount : ℕ) (h : cancelled = true) :
      WorkerStep m cancelled (.checking record batch processCount) .skip .returned
  | unparsable (record : List String) (batch : List ExternalTransaction) (processCount : ℕ) (err : String) (h : cancelled = false)
      (hparse : m.parse record = .error err) :
      WorkerStep m cancelled (.checking record batch processCount) .skip (.reporting err (.waiting batch processCount))
  | append (record : List String) (batch : List ExternalTransaction) (processCount : ℕ) (txn : ExternalTransaction)
      (h : cancelled = false) (hparse : m.parse record = .ok txn) (hroom : batch.length+1 < defaultBatchSize) :
      WorkerStep m cancelled (.checking record batch processCount) .skip (.advancing (batch ++ [txn]) processCount)
  | full (record : List String) (batch : List ExternalTransaction) (processCount : ℕ) (txn : ExternalTransaction)
      (h : cancelled = false) (hparse : m.parse record = .ok txn) (hfull : defaultBatchSize ≤ batch.length+1) :
      WorkerStep m cancelled (.checking record batch processCount) .skip
        (.storing (batch ++ [txn]) (batch ++ [txn]) processCount false)
  | store (txn : ExternalTransaction) (rest batch : List ExternalTransaction) (processCount : ℕ) (last : Bool) :
      WorkerStep m cancelled (.storing (txn :: rest) batch processCount last) (.store txn) (.storing rest batch processCount last)
  | fail (err : String) (txn : ExternalTransaction) (rest batch : List ExternalTransaction) (processCount : ℕ) (last : Bool)
      (h : m.storeFails = true) :
      WorkerStep m cancelled (.storing (txn :: rest) batch processCount last) .skip
        (.reporting err (.afterBatch processCount last))
  | count (batch : List ExternalTransaction) (processCount : ℕ) (last : Bool) :
      WorkerStep m cancelled (.storing [] batch processCount last) (.count batch.length) (.afterBatch processCount last)
  | report (err : String) (next : Worker) : WorkerStep m cancelled (.reporting err next) (.report err) next
  | advance (batch : List ExternalTransaction) (processCount : ℕ)
      (h : cancelled = true → ¬ (processCount+1)%contextCheckInterval = 0) :
      WorkerStep m cancelled (.advancing batch processCount) .skip (.waiting batch (processCount+1))
  | leave (batch : List ExternalTransaction) (processCount : ℕ) (h : cancelled = true)
      (hcheck : (processCount+1)%contextCheckInterval = 0) :
      WorkerStep m cancelled (.advancing batch processCount) .skip .returned

/-- What the goroutines share: the two channels, the count, and what has been stored. -/
structure Shared where
  queue : List (List String)
  rowsClosed : Bool
  errs : List String
  errsClosed : Bool
  total : ℕ
  stored : List ExternalTransaction

inductive Takes (capacity : ℕ) (c : Shared) : Effect → Shared → Prop
  | skip : Takes capacity c .skip c
  | send (record : List String) (h : c.queue.length < defaultChannelSize) :
      Takes capacity c (.send record) { c with queue := c.queue ++ [record] }
  | closeRows : Takes capacity c .closeRows { c with rowsClosed := true }
  | receive (record : List String) (queue : List (List String)) (h : c.queue = record :: queue) :
      Takes capacity c (.receive record) { c with queue := queue }
  | drained (h : c.queue = []) (hclosed : c.rowsClosed = true) : Takes capacity c .drained c
  | report (err : String) (h : c.errs.length < capacity) (hopen : c.errsClosed = false) :
      Takes capacity c (.report err) { c with errs := c.errs ++ [err] }
  | store (txn : ExternalTransaction) : Takes capacity c (.store txn) { c with stored := c.stored ++ [txn] }
  | count (n : ℕ) : Takes capacity c (.count n) { c with total := c.total+n }

def Effect.received : Effect → List (List String)
  | .receive record => [record]
  | _ => []

/-- An import that runs, with the records that each worker has received so far. -/
structure ImportState (m : CsvImport) where
  reader : Reader
  workers : Fin m.workerCount → Worker
  taken : Fin m.workerCount → List (List String)
  shared : Shared
  result : Option (ℕ × List String)
  cancelled : Bool

variable {m : CsvImport} {s t : ImportState m}

/-- A step of one of the goroutines. -/
inductive ImportStep (m : CsvImport) : ImportState m → ImportState m → Prop
  | reader {s : ImportState m} (effect : Effect) (reader : Reader) (shared : Shared)
      (h : ReaderStep s.cancelled s.reader effect reader) (htakes : Takes m.workerCount s.shared effect shared) :
      ImportStep m s { s with reader := reader, shared := shared }
  | worker {s : ImportState m} (i : Fin m.workerCount) (effect : Effect) (worker : Worker) (shared : Shared)
      (h : WorkerStep m s.cancelled (s.workers i) effect worker) (htakes : Takes m.workerCount s.shared effect shared) :
      ImportStep m s
        { s with
          workers := Function.update s.workers i worker
          taken := Function.update s.taken i (s.taken i ++ effect.received)
          shared := shared }
  /-- The wait for the workers ends. -/
  | close {s : ImportState m} (hreturned : ∀ i, s.workers i = .returned) (hopen : s.shared.errsClosed = false) :
      ImportStep m s { s with shared := { s.shared with errsClosed := true } }
  | collect {s : ImportState m} (hclosed : s.shared.errsClosed = true) (hresult : s.result = none) :
      ImportStep m s { s with result := some (s.shared.total,s.shared.errs) }

/-- A step of a goroutine, or the end of the context. -/
inductive ImportMove (m : CsvImport) (s : ImportState m) : ImportState m → Prop
  | step {t : ImportState m} (h : ImportStep m s t) : ImportMove m s t
  | cancel (h : m.cancellable = true) : ImportMove m s { s with cancelled := true }

def CsvImport.initial (m : CsvImport) : ImportState m where
  reader := .reading m.rows 1
  workers _ := .waiting [] 0
  taken _ := []
  shared := ⟨[],false,[],false,0,[]⟩
  result := none
  cancelled := false

def CsvImport.Reaches (m : CsvImport) : ImportState m → Prop := ReflTransGen (ImportMove m) m.initial

end LedgerForge.Files
