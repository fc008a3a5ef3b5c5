import LedgerForge.Chain.Encoding
import LedgerForge.Library.HashChains
import LedgerForge.Library.Results

/-! # Sealing and verifying the transaction chain

A sealing pass links the oldest unsealed transactions onto the head of the chain, with a checkpoint at every
thousandth link and at the last one. Verification replays the sealed rows from the first and lists every
disagreement with the chain state, the checkpoints, the caller's anchors and the insert journal.
-/

namespace LedgerForge.Chain

open Framing

/-- SHA-256, printed in hexadecimal. -/
structure Digest where
  sum : Bytes → Bytes
  hex : ∀ x, HexDigest (sum x)

def chainGenesisHash : Bytes := ascii "0000000000000000000000000000000000000000000000000000000000000000"

variable {clock : Clock} (sha : Digest)

def computeChainHash (prevHash : Bytes) (r : ChainRow clock) : Bytes := sha.sum (canonicalChainV1 prevHash r)

/-- The hash of an encoding that fits its buffer. The buffer of the source panics where this one fails. -/
def hashBuffered : Option Bytes → Except String Bytes
  | some b => .ok (sha.sum b)
  | none => .error "bytes.Buffer: too large"

def computeChainHashVersion (version : ℤ) (prevHash : Bytes) (r : ChainRow clock) : Except String Bytes :=
  if version = 1 then .ok (computeChainHash sha prevHash r)
  else if version = 2 then hashBuffered sha (canonicalChainV2 prevHash r)
  else if version = 3 then hashBuffered sha (canonicalChainV3 prevHash r)
  else .error ("unsupported chain canonical version " ++ toString version)

/-- The chain columns of a transaction. A missing version is the first one. -/
structure Seal where
  seq : ℤ
  prevHash : Bytes
  hash : Bytes
  version : ℤ
deriving DecidableEq

/-- A row of the transactions table: the columns the chain covers, the other protected columns, and its seal. -/
structure StoredTransaction (clock : Clock) where
  id : ℕ
  columns : ChainRow clock
  uncovered : Bytes
  chain : Option Seal

structure ChainState where
  lastSeq : ℤ
  headHash : Bytes
  genesisHash : Bytes

structure ChainCheckpoint where
  sequence : ℤ
  count : ℤ
  headHash : Bytes
deriving DecidableEq

structure ChainDatabase (clock : Clock) where
  transactions : List (StoredTransaction clock)
  /-- The rows as the insert trigger wrote them down. -/
  insertJournal : List (StoredTransaction clock)
  checkpoints : List ChainCheckpoint
  state : ChainState

def ChainDatabase.init (clock : Clock) : ChainDatabase clock where
  transactions := []
  insertJournal := []
  checkpoints := []
  state := ⟨0,chainGenesisHash,chainGenesisHash⟩

def StoredTransaction.chainRow (t : StoredTransaction clock) : ChainRow clock :=
  { t.columns with id := ascii (toString t.id) }

def StoredTransaction.SameData (t u : StoredTransaction clock) : Prop :=
  t.id = u.id ∧ t.columns = u.columns ∧ t.uncovered = u.uncovered
deriving Decidable

/-- A sealed row as the verifier reads it. -/
structure ChainedTransaction (clock : Clock) where
  canonicalVersion : ℤ
  row : ChainRow clock
  chainSeq : ℤ
  chainPrevHash : Bytes
  chainHash : Bytes

def StoredTransaction.chained (t : StoredTransaction clock) : Option (ChainedTransaction clock) :=
  t.chain.map fun s => ⟨s.version,t.chainRow,s.seq,s.prevHash,s.hash⟩

/-- The sealed rows in chain order. -/
def ChainDatabase.chainedTransactions (db : ChainDatabase clock) : List (ChainedTransaction clock) :=
  (db.transactions.filterMap StoredTransaction.chained).insertionSort fun a b => a.chainSeq ≤ b.chainSeq

def ChainDatabase.readChainCheckpoints (db : ChainDatabase clock) : List ChainCheckpoint :=
  db.checkpoints.insertionSort fun a b => a.sequence ≤ b.sequence

/-- A committed insert. Identifiers come from a sequence and may commit in any order. -/
def ChainDatabase.insertTransaction (db : ChainDatabase clock) (t : StoredTransaction clock) :
    Except String (ChainDatabase clock) :=
  if db.transactions.any fun u => u.id = t.id || u.columns.transactionID = t.columns.transactionID then
    .error "duplicate key value violates unique constraint"
  else
    .ok { db with
      transactions := db.transactions ++ [{ t with chain := none }]
      insertJournal := db.insertJournal ++ [{ t with chain := none }] }

def ChainDatabase.unchained (db : ChainDatabase clock) (cutoff : clock.Time) (batchSize : ℤ) : List (StoredTransaction clock) :=
  ((db.transactions.filter fun t => t.chain.isNone && clock.before t.columns.createdAt cutoff).insertionSort
    fun t u => t.id ≤ u.id).take batchSize.toNat

def links : ℤ → Bytes → List (StoredTransaction clock) → Except String (List (ℕ × Seal))
  | _, _, [] => .ok []
  | lastSeq, head, t :: ts => do
    let hash ← computeChainHashVersion sha 3 head t.chainRow
    let rest ← links (lastSeq+1) hash ts
    .ok ((t.id,⟨lastSeq+1,head,hash,3⟩) :: rest)

def ChainDatabase.writeSeal (db : ChainDatabase clock) (id : ℕ) (s : Seal) : ChainDatabase clock :=
  { db with
    transactions := db.transactions.map fun t => if t.id = id ∧ t.chain = none then { t with chain := some s } else t }

def ChainDatabase.insertCheckpoint (db : ChainDatabase clock) (seq : ℤ) (hash : Bytes) : Except String (ChainDatabase clock) :=
  if db.checkpoints.any fun cp => cp.sequence = seq then .error "write chain checkpoint: duplicate key"
  else .ok { db with checkpoints := db.checkpoints ++ [⟨seq,seq,hash⟩] }

def ChainDatabase.checkpoint (db : ChainDatabase clock) (lastSeq : ℤ) (s : Seal) : Except String (ChainDatabase clock) :=
  if s.seq % 1000 = 0 ∨ s.seq = lastSeq then db.insertCheckpoint s.seq s.hash else .ok db

def writeLinks (lastSeq : ℤ) : ChainDatabase clock → List (ℕ × Seal) → Except String (ChainDatabase clock)
  | db, [] => .ok db
  | db, (id,s) :: rest => do
    let checked ← (db.writeSeal id s).checkpoint lastSeq s
    writeLinks lastSeq checked rest

def ChainDatabase.chainPendingTransactions (db : ChainDatabase clock) (cutoff : clock.Time) (batchSize : ℤ) :
    Except String (ChainDatabase clock × ℕ) :=
  if batchSize ≤ 0 then .error "chain batch size must be positive"
  else do
    let batch ← links sha db.state.lastSeq db.state.headHash (db.unchained cutoff batchSize)
    match batch.getLast? with
    | none => .ok (db,0)
    | some (_,last) =>
      let written ← writeLinks last.seq db batch
      .ok ({ written with state := { written.state with lastSeq := last.seq, headHash := last.hash } },batch.length)

inductive ChainEvent (clock : Clock)
  | insert (t : StoredTransaction clock)
  | sealing (cutoff : clock.Time) (batchSize : ℤ)

/-- A failed insert or pass is rolled back. -/
def ChainDatabase.step (db : ChainDatabase clock) : ChainEvent clock → ChainDatabase clock
  | .insert t => (db.insertTransaction t).toOption.getD db
  | .sealing cutoff batchSize => ((db.chainPendingTransactions sha cutoff batchSize).toOption.map Prod.fst).getD db

def ChainDatabase.run (db : ChainDatabase clock) (events : List (ChainEvent clock)) : ChainDatabase clock :=
  events.foldl (ChainDatabase.step sha) db

structure ChainIssue where
  sequence : ℤ
  transactionID : Bytes
  reason : String
deriving DecidableEq

structure ChainVerifyResult where
  verified : Bool
  lastSeq : ℤ
  headHash : Bytes
  pending : ℕ
  /-- The first issue is also reported as the broken place. -/
  tampering : List ChainIssue

def addRoot (roots : ℤ → Option Bytes) (cp : ChainCheckpoint) : ℤ → Option Bytes :=
  Function.update roots cp.sequence (some cp.headHash)

def ChainDatabase.roots (db : ChainDatabase clock) : ℤ → Option Bytes :=
  db.readChainCheckpoints.foldl addRoot fun _ => none

def anchorIssues (roots : ℤ → Option Bytes) (anchor : ChainCheckpoint) : List ChainIssue :=
  if anchor.sequence ≤ 0 ∨ anchor.count ≠ anchor.sequence then
    [⟨anchor.sequence,[],"invalid external checkpoint count or sequence"⟩]
  else if roots anchor.sequence ≠ some anchor.headHash then
    [⟨anchor.sequence,[],"external checkpoint root does not match stored checkpoint"⟩]
  else []

/-- The state of the verifying loop. -/
structure Replay where
  count : ℤ
  lastSeq : ℤ
  head : Bytes
  roots : ℤ → Option Bytes
  tampering : List ChainIssue

def hashIssues (ct : ChainedTransaction clock) : List ChainIssue :=
  match computeChainHashVersion sha ct.canonicalVersion ct.chainPrevHash ct.row with
  | .error e => [⟨ct.chainSeq,ct.row.transactionID,e⟩]
  | .ok hash =>
    if hash ≠ ct.chainHash then [⟨ct.chainSeq,ct.row.transactionID,"live financial data does not match stored chain_hash"⟩]
    else []

def rootIssues (roots : ℤ → Option Bytes) (ct : ChainedTransaction clock) : List ChainIssue :=
  match roots ct.chainSeq with
  | some root => if root ≠ ct.chainHash then [⟨ct.chainSeq,ct.row.transactionID,"checkpoint root does not match chain"⟩] else []
  | none => []

def rowIssues (s : Replay) (ct : ChainedTransaction clock) : List ChainIssue :=
  (if ct.chainSeq ≠ s.count+1 then
    [⟨ct.chainSeq,ct.row.transactionID,
      "non-contiguous chain_seq: expected " ++ toString (s.count+1) ++ ", got " ++ toString ct.chainSeq⟩] else []) ++
  (if ct.chainPrevHash ≠ s.head then
    [⟨ct.chainSeq,ct.row.transactionID,"chain_prev_hash does not match running head"⟩] else []) ++
  hashIssues sha ct ++ rootIssues s.roots ct

def Replay.next (s : Replay) (ct : ChainedTransaction clock) : Replay where
  count := s.count+1
  lastSeq := ct.chainSeq
  head := ct.chainHash
  roots := Function.update s.roots ct.chainSeq none
  tampering := s.tampering ++ rowIssues sha s ct

def stateIssues (state : ChainState) (s : Replay) : List ChainIssue :=
  if s.count ≠ state.lastSeq ∨ s.lastSeq ≠ state.lastSeq ∨ s.head ≠ state.headHash then
    [⟨state.lastSeq,[],"replayed length or head does not match chain_state"⟩]
  else []

def checkpointIssues (roots : ℤ → Option Bytes) (cp : ChainCheckpoint) : List ChainIssue :=
  (if (roots cp.sequence).isSome then [⟨cp.sequence,[],"checkpoint refers to a missing chain entry"⟩] else []) ++
  (if cp.count ≠ cp.sequence then [⟨cp.sequence,[],"checkpoint count does not match sequence"⟩] else [])

/-- The evidence of one insert against the live rows. -/
def journalIssues (rows : List (StoredTransaction clock)) (j : StoredTransaction clock) : List ChainIssue :=
  let live := rows.filter fun t => t.columns.transactionID = j.columns.transactionID
  if live = [] then
    [⟨0,j.columns.transactionID,"committed transaction missing from live data (INSERT journal evidence)"⟩]
  else if live.any fun t => ¬ t.SameData j then
    [⟨0,j.columns.transactionID,"live financial data differs from INSERT journal evidence"⟩]
  else []

def ChainDatabase.replay (db : ChainDatabase clock) (anchors : List ChainCheckpoint) : Replay :=
  db.chainedTransactions.foldl (Replay.next sha)
    { count := 0
      lastSeq := 0
      head := db.state.genesisHash
      roots := db.roots
      tampering := anchors.flatMap (anchorIssues db.roots) ++
        if db.state.genesisHash ≠ chainGenesisHash then [⟨0,[],"unexpected genesis hash"⟩] else [] }

def ChainDatabase.tampering (db : ChainDatabase clock) (anchors : List ChainCheckpoint) : List ChainIssue :=
  let s := db.replay sha anchors
  s.tampering ++ stateIssues db.state s ++ db.readChainCheckpoints.flatMap (checkpointIssues s.roots) ++
    (db.insertJournal.flatMap (journalIssues db.transactions)).dedup

def ChainDatabase.verifyChainSnapshotWithAnchors (db : ChainDatabase clock) (anchors : List ChainCheckpoint) :
    ChainVerifyResult where
  verified := (db.tampering sha anchors).isEmpty
  lastSeq := (db.replay sha anchors).lastSeq
  headHash := (db.replay sha anchors).head
  pending := db.transactions.countP fun t => t.chain.isNone
  tampering := db.tampering sha anchors

end LedgerForge.Chain
