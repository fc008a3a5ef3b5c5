import LedgerForge.Engine.Acknowledgement
import LedgerForge.Library.Paging

/-! # Commit and void by parent

A queued action commits or voids every hold below a parent. A worker first collects the legs page by page and then
applies the action to one leg after the other; whether a leg is skipped or the whole task is retried is read off the
text of the error.
-/

namespace LedgerForge

open Engine

/-- The payload of a queued action. -/
structure InflightAction where
  parent : String
  action : String
  amount : Option ℤ
  actionID : String
deriving DecidableEq

/-- The derived reference of the commit or void of a leg; empty without an action identifier. -/
def inflightActionReference (legTransactionID action actionID : String) : String :=
  if actionID = "" then "" else legTransactionID ++ "_" ++ action ++ "_" ++ actionID

namespace InflightAction

/-- The reference that is stored: a generated one replaces an empty one. -/
def reference (a : InflightAction) (leg generated : String) : String :=
  let reference := inflightActionReference leg a.action a.actionID
  if reference ≠ "" then reference else generated

/-- The operation on one leg; everything that is not a void is a commit. -/
def applyToLeg (a : InflightAction) (leg generated newID : String) (queuedDebit : Option ℤ) : Operation :=
  if a.action = "void" then .void leg (a.reference leg generated) newID queuedDebit
  else .commit leg a.amount (a.reference leg generated) newID queuedDebit

end InflightAction

inductive InflightErrorCode
  | notFound | alreadyVoided | alreadyCommitted | notInflight | invalidAmount | locked | internalError
deriving DecidableEq

def classifyInflightError (message : String) : InflightErrorCode :=
  if mentions message "transaction not found" || mentions message "no rows in result set" ||
      mentions message "not found" then .notFound
  else if mentions message "has already been voided" then .alreadyVoided
  else if mentions message "transaction already committed" then .alreadyCommitted
  else if mentions message "not in inflight status" then .notInflight
  else if mentions message "cannot commit more than" then .invalidAmount
  else if mentions message "failed to acquire lock" then .locked
  else .internalError

/-- A terminal error is skipped, any other one makes the task retry. -/
def isTerminalInflightError (message : String) : Bool :=
  isDuplicateReferenceError message ||
    classifyInflightError message ∈ [.alreadyCommitted,.alreadyVoided,.notInflight,.invalidAmount]

/-- Where a run of an action stands. -/
inductive ActionPhase
  | collecting (offset : ℕ) (legs : List String)
  | applying (legs : List String) (transient : Bool)
  | finished (retryable : Bool)
  | crashed
deriving DecidableEq

def ActionPhase.remaining (legs : List String) (transient : Bool) : ActionPhase :=
  if legs = [] then .finished transient else .applying legs transient

structure ActionRun where
  action : InflightAction
  phase : ActionPhase
deriving DecidableEq

/-- The creation time of the rows, by identifier, and the configured page size. -/
structure ActionSettings where
  createdAt : String → ℤ
  batchSize : ℤ

def ActionSettings.pageSize (c : ActionSettings) : ℕ := if c.batchSize ≤ 0 then 100 else c.batchSize.toNat

def ActionSettings.key (c : ActionSettings) (r : Row) : ℤ := c.createdAt r.transactionID

/-- Read one page of legs; a page that is not full is the last one. -/
def ActionSettings.collectPage (c : ActionSettings) (returned : List Row) (offset : ℕ) (legs : List String) : ActionPhase :=
  let batch := Paging.page offset c.pageSize returned
  let legs := legs ++ batch.map Row.transactionID
  if batch.length < c.pageSize then .remaining legs false else .collecting (offset+c.pageSize) legs

/-- The engine and every run of an action so far. -/
structure ActionSystem where
  engine : Engine
  runs : List ActionRun
deriving DecidableEq

/-- One step: an operation of the engine, or a step of a run. A query orders rows of equal creation times in its own way.
A failure outside of the ledger's checks (a held lock, a policy, the database) has none of the terminal texts. -/
inductive ActionEvent
  | operation (op : Operation)
  | start (action : InflightAction)
  | page (run : ℕ) (returned : List Row)
  | fetchFailed (run : ℕ)
  | leg (run : ℕ) (generated newID : String) (queuedDebit : Option ℤ)
  | legFailed (run : ℕ) (message : String)
  | crash (run : ℕ)

def isBalanceID (id : String) : Bool := "bln_".toList <+: id.toList && (id.toList.drop 4).all isUUIDChar

def Engine.Operation.generates : Operation → Bool
  | .createBalance id _ => isBalanceID id
  | _ => true

namespace ActionSystem

def empty : ActionSystem := ⟨.empty,[]⟩

def rows (s : ActionSystem) : List Row := s.engine.database.transactions

def setPhase (s : ActionSystem) (i : ℕ) (phase : ActionPhase) : ActionSystem :=
  { s with runs := s.runs.modify i fun r => { r with phase := phase } }

/-- Apply the action to a leg and go on with the others; an error other than a terminal one is remembered. -/
def applyLeg (s : ActionSystem) (i : ℕ) (op : Operation) (legs : List String) (transient : Bool) : ActionSystem :=
  match s.engine.perform op with
  | .ok e => { s with engine := e }.setPhase i (.remaining legs transient)
  | .error message => s.setPhase i (.remaining legs (transient || !isTerminalInflightError message))

def step (c : ActionSettings) (s : ActionSystem) : ActionEvent → ActionSystem
  | .operation op => if op.generates then { s with engine := s.engine.step op } else s
  | .start a => { s with runs := s.runs ++ [⟨a,.collecting 0 []⟩] }
  | .page i returned => match s.runs[i]? with
    | some ⟨a,.collecting offset legs⟩ =>
      if returned.Perm (s.engine.database.getInflightTransactionsByParentID a.parent) ∧ Paging.Ordered c.key returned then
        s.setPhase i (c.collectPage returned offset legs)
      else s
    | _ => s
  | .fetchFailed i => match s.runs[i]? with
    | some ⟨_,.collecting _ _⟩ => s.setPhase i (.finished true)
    | _ => s
  | .leg i generated newID queuedDebit => match s.runs[i]? with
    | some ⟨a,.applying (leg :: legs) transient⟩ =>
      let op := a.applyToLeg leg generated newID queuedDebit
      if s.engine.admissible op then s.applyLeg i op legs transient else s
    | _ => s
  | .legFailed i message => match s.runs[i]? with
    | some ⟨_,.applying (_ :: legs) _⟩ =>
      if isTerminalInflightError message then s else s.setPhase i (.remaining legs true)
    | _ => s
  | .crash i => match s.runs[i]? with
    | some ⟨_,.finished _⟩ => s
    | some _ => s.setPhase i .crashed
    | none => s

def run (c : ActionSettings) (events : List ActionEvent) : ActionSystem := events.foldl (step c) empty

end ActionSystem
end LedgerForge
