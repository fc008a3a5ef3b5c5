import LedgerForge.Library.EventRuns
import LedgerForge.Model.Transaction

/-! # Balance monitors

A monitor watches a counter of a balance. Its threshold is stored as an amount in minor units, which is computed when the
monitor is created; the monitors of a balance are read through a cache with a copy in every process and a shared one.
-/

namespace LedgerForge.Monitors

open Function

/-- The counters that the table's check allows. -/
inductive MonitorField
  | debitBalance
  | creditBalance
  | balance
  | inflightDebitBalance
  | inflightCreditBalance
  | inflightBalance
deriving DecidableEq

def MonitorField.parse : String → Option MonitorField
  | "debit_balance" => some debitBalance
  | "credit_balance" => some creditBalance
  | "balance" => some balance
  | "inflight_debit_balance" => some inflightDebitBalance
  | "inflight_credit_balance" => some inflightCreditBalance
  | "inflight_balance" => some inflightBalance
  | _ => none

def MonitorField.read (b : Balance) : MonitorField → ℤ
  | debitBalance => b.counters.debit
  | creditBalance => b.counters.credit
  | balance => b.balance
  | inflightDebitBalance => b.counters.inflightDebit
  | inflightCreditBalance => b.counters.inflightCredit
  | inflightBalance => b.inflightBalance

/-- The operators that the table's check allows. -/
inductive Operator
  | gt
  | lt
  | ge
  | le
  | eq
  | ne
deriving DecidableEq

def Operator.parse : String → Option Operator
  | ">" => some gt
  | "<" => some lt
  | ">=" => some ge
  | "<=" => some le
  | "=" => some eq
  | "!=" => some ne
  | _ => none

/-- Equality is compared for the text `==` only, which the table does not accept. -/
def compare (value : ℤ) (operator : Operator) (compareTo : ℤ) : Bool :=
  match operator with
  | .gt => compareTo < value
  | .lt => value < compareTo
  | .ge => compareTo ≤ value
  | .le => value ≤ compareTo
  | .ne => value ≠ compareTo
  | .eq => false

/-- A row of the table. -/
structure BalanceMonitor where
  monitorID : String
  balanceID : String
  field : MonitorField
  operator : Operator
  value : ℤ
  precision : Float64
  preciseValue : ℤ

def BalanceMonitor.checkCondition (m : BalanceMonitor) (b : Balance) : Bool :=
  compare (m.field.read b) m.operator m.preciseValue

structure MonitorRequest where
  balanceID : String
  field : String
  operator : String
  value : Float64
  precision : Float64

structure Requested where
  balanceID : String
  field : MonitorField
  operator : Operator
  value : Float64
  precision : Float64

def Requested.threshold (r : Requested) : ℤ := truncate (r.value.value*r.precision.value)

def Requested.Holds (r : Requested) (b : Balance) : Prop :=
  match r.operator with
  | .gt => r.threshold < r.field.read b
  | .lt => r.field.read b < r.threshold
  | .ge => r.threshold ≤ r.field.read b
  | .le => r.field.read b ≤ r.threshold
  | .ne => r.field.read b ≠ r.threshold
  | .eq => r.field.read b = r.threshold

/-- The column for the value takes integers only. -/
def bigint (x : Float64) : Option ℤ :=
  match x with
  | .finite _ _ => if x.value.den = 1 ∧ -2^63 ≤ x.value.num ∧ x.value.num < 2^63 then some x.value.num else none
  | _ => none

def MonitorRequest.columns (r : MonitorRequest) : Option (MonitorField × Operator × ℤ) :=
  match MonitorField.parse r.field, Operator.parse r.operator, bigint r.value with
  | some field, some operator, some value => some (field,operator,value)
  | _, _, _ => none

/-- The statement that updates a row sets neither the precision nor the precise value. -/
def BalanceMonitor.updated (m : BalanceMonitor) (balanceID : String) (field : MonitorField) (operator : Operator) (value : ℤ) :
    BalanceMonitor := { m with balanceID := balanceID, field := field, operator := operator, value := value }

variable {π : Type} [DecidableEq π]

structure MonitorState (π : Type) where
  rows : List BalanceMonitor
  /-- The copies in the memory of the processes. -/
  locals : π → String → Option (List BalanceMonitor)
  shared : String → Option (List BalanceMonitor)
  /-- What a process has read from the table and not put into the cache yet. -/
  pending : List (π × String × List BalanceMonitor)
  /-- What was last asked for. -/
  latest : String → Option Requested

inductive MonitorEvent (π : Type)
  | create (p : π) (monitorID : String) (request : MonitorRequest)
  | update (p : π) (monitorID : String) (request : MonitorRequest)
  | delete (p : π) (monitorID : String)
  /-- A balance has been updated. -/
  | check (p : π) (balance : Balance)
  /-- A process puts what it has read into the cache. -/
  | fill (read : ℕ)
  /-- A copy is lost or has expired. -/
  | loseLocal (p : π) (balanceID : String)
  | loseShared (balanceID : String)

namespace MonitorState

def getBalanceMonitors (s : MonitorState π) (balanceID : String) : List BalanceMonitor := s.rows.filter (·.balanceID = balanceID)

def getMonitorByID (s : MonitorState π) (monitorID : String) : Option BalanceMonitor := s.rows.find? (·.monitorID = monitorID)

def getBalanceMonitorsCached (s : MonitorState π) (p : π) (balanceID : String) : List BalanceMonitor :=
  match s.locals p balanceID with
  | some monitors => monitors
  | none => match s.shared balanceID with
    | some monitors => monitors
    | none => s.getBalanceMonitors balanceID

def checkBalanceMonitors (s : MonitorState π) (p : π) (balance : Balance) : List BalanceMonitor :=
  (s.getBalanceMonitorsCached p balance.balanceID).filter (·.checkCondition balance)

/-- What is read on the way: a shared copy is kept in memory, and rows are put into the cache later. -/
def afterRead (s : MonitorState π) (p : π) (balanceID : String) : MonitorState π :=
  match s.locals p balanceID, s.shared balanceID with
  | some _, _ => s
  | none, some monitors => { s with locals := update s.locals p (update (s.locals p) balanceID (some monitors)) }
  | none, none => { s with pending := s.pending ++ [(p,balanceID,s.getBalanceMonitors balanceID)] }

def setCopies (s : MonitorState π) (p : π) (balanceID : String) (copy : Option (List BalanceMonitor)) : MonitorState π :=
  { s with
    locals := update s.locals p (update (s.locals p) balanceID copy)
    shared := update s.shared balanceID copy }

def createMonitor (s : MonitorState π) (outOfRange : Float64 → ℤ) (p : π) (monitorID : String) (request : MonitorRequest) :
    MonitorState π :=
  match s.getMonitorByID monitorID, request.columns with
  | none, some (field,operator,value) =>
    { s.setCopies p request.balanceID none with
      rows := s.rows ++ [⟨monitorID,request.balanceID,field,operator,value,request.precision,
        toInt64 outOfRange (request.value.mul request.precision)⟩]
      latest := update s.latest monitorID (some ⟨request.balanceID,field,operator,request.value,request.precision⟩) }
  | _, _ => s

/-- An update that gives no precision keeps the one that was asked for. -/
def requestedPrecision (s : MonitorState π) (monitorID : String) (request : MonitorRequest) : Float64 :=
  match s.latest monitorID with
  | some r => if request.precision.isZero then r.precision else request.precision
  | none => request.precision

def updateMonitor (s : MonitorState π) (p : π) (monitorID : String) (request : MonitorRequest) : MonitorState π :=
  match s.getMonitorByID monitorID, request.columns with
  | some _, some (field,operator,value) =>
    { s.setCopies p request.balanceID none with
      rows := s.rows.map fun m =>
        if m.monitorID = monitorID then m.updated request.balanceID field operator value else m
      latest := update s.latest monitorID
        (some ⟨request.balanceID,field,operator,request.value,s.requestedPrecision monitorID request⟩) }
  | _, _ => s

def deleteMonitor (s : MonitorState π) (p : π) (monitorID : String) : MonitorState π :=
  match s.getMonitorByID monitorID with
  | none => s
  | some monitor =>
    { s.setCopies p monitor.balanceID none with
      rows := s.rows.filter (·.monitorID ≠ monitorID)
      latest := update s.latest monitorID none }

/-- A request that is refused changes nothing. -/
def step (outOfRange : Float64 → ℤ) (s : MonitorState π) : MonitorEvent π → MonitorState π
  | .create p monitorID request => s.createMonitor outOfRange p monitorID request
  | .update p monitorID request => s.updateMonitor p monitorID request
  | .delete p monitorID => s.deleteMonitor p monitorID
  | .check p balance => s.afterRead p balance.balanceID
  | .fill read => match s.pending[read]? with
    | none => s
    | some (p,balanceID,monitors) => { s.setCopies p balanceID (some monitors) with pending := s.pending.eraseIdx read }
  | .loseLocal p balanceID => { s with locals := update s.locals p (update (s.locals p) balanceID none) }
  | .loseShared balanceID => { s with shared := update s.shared balanceID none }

def init : MonitorState π := ⟨[],fun _ _ => none,fun _ => none,[],fun _ => none⟩

/-- The alert that is due: the monitor exists, watches the balance, and what was last asked for holds. -/
def Due (s : MonitorState π) (monitorID : String) (balance : Balance) : Prop :=
  ∃ r, s.latest monitorID = some r ∧ r.balanceID = balance.balanceID ∧ r.Holds balance

/-- The state after some copies have been lost. -/
structure Loses (s t : MonitorState π) : Prop where
  rows : t.rows = s.rows
  locals : ∀ p balanceID, t.locals p balanceID = s.locals p balanceID ∨ t.locals p balanceID = none
  shared : ∀ balanceID, t.shared balanceID = s.shared balanceID ∨ t.shared balanceID = none

/-- An update of a balance raises the alerts that are due, in whatever process and whichever copies are left. -/
def Faithful (s : MonitorState π) : Prop :=
  ∀ t, s.Loses t → ∀ p balance monitorID,
    (∃ m ∈ t.checkBalanceMonitors p balance, m.monitorID = monitorID) ↔ s.Due monitorID balance

def Answers (s : MonitorState π) (balanceID : String) (monitors : List BalanceMonitor) : Prop :=
  ∀ balance : Balance, balance.balanceID = balanceID → ∀ monitorID,
    (∃ m ∈ monitors, m.monitorID = monitorID ∧ m.checkCondition balance = true) ↔ s.Due monitorID balance

def NoOtherCopy (s : MonitorState π) (p : π) (balanceID : String) : Prop := ∀ q ≠ p, s.locals q balanceID = none

/-- When a step keeps the promise. -/
def Clean (outOfRange : Float64 → ℤ) (s : MonitorState π) : MonitorEvent π → Prop
  | .create p monitorID request => ∀ field operator value, s.getMonitorByID monitorID = none →
      request.columns = some (field,operator,value) →
      -- Equality never alerts, and the product of the doubles can differ from the exact one.
      operator ≠ .eq ∧
      toInt64 outOfRange (request.value.mul request.precision) = truncate (request.value.value*request.precision.value) ∧
      s.NoOtherCopy p request.balanceID
  | .update p monitorID request => ∀ m r field operator value, s.getMonitorByID monitorID = some m → s.latest monitorID = some r →
      request.columns = some (field,operator,value) →
      -- The threshold stays the one of the creation.
      let r' : Requested := ⟨request.balanceID,field,operator,request.value,s.requestedPrecision monitorID request⟩
      operator ≠ .eq ∧ m.preciseValue = r'.threshold ∧
      if m.balanceID = request.balanceID then s.NoOtherCopy p request.balanceID ∨ ∀ balance, r.Holds balance ↔ r'.Holds balance
      -- The copies of the balance that the monitor leaves are not dropped.
      else s.NoOtherCopy p request.balanceID ∧ s.shared m.balanceID = none ∧ ∀ q, s.locals q m.balanceID = none
  | .delete p monitorID => ∀ m, s.getMonitorByID monitorID = some m → s.NoOtherCopy p m.balanceID
  -- What has been read is still right.
  | .fill read => ∀ p balanceID monitors, s.pending[read]? = some (p,balanceID,monitors) → s.Answers balanceID monitors
  | _ => True

end MonitorState

end LedgerForge.Monitors
