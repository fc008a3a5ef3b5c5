import LedgerForge.Library.EventRuns

/-! # The hook manager

A hook is kept as a record under its id, and its id in the set of its type. Administration writes the two with separate
commands, so that the commands of several clients interleave; a delivery carries the hook as it was when it was queued and
writes that record back.
-/

namespace LedgerForge.Hooks

open Function

inductive HookType
  | preTransaction
  | postTransaction
deriving DecidableEq

def HookType.text : HookType → String
  | preTransaction => "PRE_TRANSACTION"
  | postTransaction => "POST_TRANSACTION"

def HookType.parse (text : String) : Option HookType :=
  if text = "PRE_TRANSACTION" then some .preTransaction
  else if text = "POST_TRANSACTION" then some .postTransaction
  else none

def maxHookRetryCount : ℤ := 10

/-- A hook as a request or a queued task gives it. -/
structure HookRequest where
  id : String
  name : String
  url : String
  type : String
  active : Bool
  timeout : ℤ
  retryCount : ℤ
  createdAt : ℕ
  lastRun : ℕ
  lastSuccess : Bool

structure HookConfig where
  url : String
  type : HookType
  active : Bool
  timeout : ℤ
  retryCount : ℤ
  timeout_mem : 0 < timeout ∧ timeout ≤ 120
  retryCount_mem : 0 ≤ retryCount ∧ retryCount ≤ maxHookRetryCount
deriving DecidableEq

structure Hook extends HookConfig where
  id : String
  name : String
  createdAt : ℕ
  lastRun : ℕ
  lastSuccess : Bool
deriving DecidableEq

def Hook.request (hook : Hook) : HookRequest :=
  ⟨hook.id,hook.name,hook.url,hook.type.text,hook.active,hook.timeout,hook.retryCount,hook.createdAt,hook.lastRun,hook.lastSuccess⟩

def boundedTimeout (timeout : ℤ) : ℤ :=
  let timeout := if timeout ≤ 0 then 30 else timeout
  if 120 < timeout then 120 else timeout

def boundedRetryCount (retryCount : ℤ) : ℤ :=
  let retryCount := if retryCount < 0 then 3 else retryCount
  if maxHookRetryCount < retryCount then maxHookRetryCount else retryCount

theorem boundedTimeout_mem (timeout : ℤ) : 0 < boundedTimeout timeout ∧ boundedTimeout timeout ≤ 120 := by
  simp only [boundedTimeout]
  split_ifs <;> omega

theorem boundedRetryCount_mem (retryCount : ℤ) :
    0 ≤ boundedRetryCount retryCount ∧ boundedRetryCount retryCount ≤ maxHookRetryCount := by
  simp only [boundedRetryCount,maxHookRetryCount]
  split_ifs <;> omega

/-- The check of the text of a URL is a parameter: it gives the error, if there is one. -/
def validateHook (validateURL : String → Option String) (hook : HookRequest) : Except String Hook :=
  if hook.url = "" then .error "hook URL is required"
  else match validateURL hook.url with
    | some err => .error err
    | none => match HookType.parse hook.type with
      | none => .error ("invalid hook type: " ++ hook.type)
      | some type => .ok ⟨⟨hook.url,type,hook.active,boundedTimeout hook.timeout,boundedRetryCount hook.retryCount,
          boundedTimeout_mem _,boundedRetryCount_mem _⟩,hook.id,hook.name,hook.createdAt,hook.lastRun,hook.lastSuccess⟩

/-- The manager's own check: if private destinations are blocked, the host is looked up as well, which can fail. -/
def validateHookFor (validateURL : String → Option String) (lookup : Option String) (hook : HookRequest) : Except String Hook :=
  match validateHook validateURL hook with
  | .error err => .error err
  | .ok hook => match lookup with
    | some err => .error err
    | none => .ok hook

/-- The operation that a client is in, named by the command that is next. -/
inductive Client
  | idle
  /-- The record of a new hook is stored; its id is added to the set. -/
  | registering (hook : Hook)
  /-- The type changes; the id is removed from the set of the old one. -/
  | moving (hookID : String) (existing : HookType) (hook : Hook)
  | adding (hookID : String) (hook : Hook)
  | storing (hookID : String) (hook : Hook) (moved : Bool)
  | deleting (hookID : String) (type : HookType)
  | removing (hookID : String) (type : HookType)
  /-- The ids of the hooks to queue that have not been read yet. -/
  | executing (ids : List String)

/-- The hook of which a client has made some of the writes and not all. -/
def Client.target : Client → Option String
  | registering hook => some hook.id
  | adding hookID _ => some hookID
  | storing hookID _ true => some hookID
  | removing hookID _ => some hookID
  | _ => none

variable {π : Type} [DecidableEq π]

structure HookState (π : Type) where
  hooks : String → Option Hook
  typeSets : HookType → Finset String
  /-- The hooks of the queued tasks. A task stays, since it can be retried. -/
  queue : List Hook
  clients : π → Client
  /-- What was last registered or updated under an id, and nothing once it is deleted. -/
  latest : String → Option HookConfig

inductive HookEvent (π : Type)
  | register (c : π) (hook : HookRequest) (generated : String) (now : ℕ) (lookup : Option String)
  | update (c : π) (hookID : String) (hook : HookRequest) (lookup : Option String)
  | delete (c : π) (hookID : String)
  /-- The hooks of a type are to be executed for a transaction; the set is read in some order. -/
  | execute (c : π) (type : HookType) (ids : List String)
  /-- The next command of the client's operation. -/
  | advance (c : π)
  /-- A queued task is processed up to the write of the status. -/
  | deliver (task : ℕ) (now : ℕ) (success : Bool)

namespace HookState

def setClient (s : HookState π) (c : π) (client : Client) : HookState π := { s with clients := update s.clients c client }

def sAdd (s : HookState π) (type : HookType) (id : String) : HookState π :=
  { s with typeSets := update s.typeSets type (insert id (s.typeSets type)) }

def sRem (s : HookState π) (type : HookType) (id : String) : HookState π :=
  { s with typeSets := update s.typeSets type ((s.typeSets type).erase id) }

def set (s : HookState π) (id : String) (hook : Hook) : HookState π := { s with hooks := update s.hooks id (some hook) }

def registerHook (s : HookState π) (validateURL : String → Option String) (c : π) (hook : HookRequest) (generated : String)
    (now : ℕ) (lookup : Option String) : HookState π :=
  match validateHookFor validateURL lookup { hook with id := if hook.id = "" then generated else hook.id, createdAt := now } with
  | .error _ => s
  | .ok hook => { (s.set hook.id hook).setClient c (.registering hook) with
      latest := update s.latest hook.id (some hook.toHookConfig) }

def updateHook (s : HookState π) (validateURL : String → Option String) (c : π) (hookID : String) (hook : HookRequest)
    (lookup : Option String) : HookState π :=
  match validateHookFor validateURL lookup hook with
  | .error _ => s
  | .ok hook => match s.hooks hookID with
    | none => s
    | some existing =>
      let hook := { hook with
        id := existing.id, createdAt := existing.createdAt, lastRun := existing.lastRun, lastSuccess := existing.lastSuccess }
      if existing.type ≠ hook.type then s.setClient c (.moving hookID existing.type hook)
      else s.setClient c (.storing hookID hook false)

def deleteHook (s : HookState π) (c : π) (hookID : String) : HookState π :=
  match s.hooks hookID with
  | none => s
  | some hook => s.setClient c (.deleting hookID hook.type)

/-- Ids without a record are skipped. For no type, the two sets are read and each id is taken once; the set of a type that
is neither is never written. -/
def listHooks (s : HookState π) (hookType : String) : Multiset Hook :=
  if hookType = "" then (s.typeSets .preTransaction ∪ s.typeSets .postTransaction).val.filterMap s.hooks
  else match HookType.parse hookType with
    | some type => (s.typeSets type).val.filterMap s.hooks
    | none => 0

def advance (s : HookState π) (c : π) : HookState π :=
  match s.clients c with
  | .idle => s
  | .registering hook => (s.sAdd hook.type hook.id).setClient c .idle
  | .moving hookID existing hook => (s.sRem existing hookID).setClient c (.adding hookID hook)
  | .adding hookID hook => (s.sAdd hook.type hookID).setClient c (.storing hookID hook true)
  | .storing hookID hook _ => { (s.set hookID hook).setClient c .idle with
      -- A hook that has been deleted meanwhile stays deleted.
      latest := update s.latest hookID ((s.latest hookID).map fun _ => hook.toHookConfig) }
  | .deleting hookID type => { s.setClient c (.removing hookID type) with
      hooks := update s.hooks hookID none
      latest := update s.latest hookID none }
  | .removing hookID type => (s.sRem type hookID).setClient c .idle
  | .executing [] => s.setClient c .idle
  | .executing (id :: ids) => { s.setClient c (.executing ids) with
      queue := s.queue ++ ((s.hooks id).filter fun hook => hook.active).toList }

/-- The task's hook is checked again, sent, and written back with the outcome. -/
def executeHook (s : HookState π) (validateURL : String → Option String) (hook : Hook) (now : ℕ) (success : Bool) : HookState π :=
  match validateHook validateURL hook.request with
  | .error _ => s
  | .ok hook => s.set hook.id { hook with lastRun := now, lastSuccess := success }

/-- A client begins an operation when it has none; an event that cannot happen changes nothing. -/
def step (validateURL : String → Option String) (s : HookState π) : HookEvent π → HookState π
  | .register c hook generated now lookup => match s.clients c with
    | .idle => s.registerHook validateURL c hook generated now lookup
    | _ => s
  | .update c hookID hook lookup => match s.clients c with
    | .idle => s.updateHook validateURL c hookID hook lookup
    | _ => s
  | .delete c hookID => match s.clients c with
    | .idle => s.deleteHook c hookID
    | _ => s
  | .execute c type ids => match s.clients c with
    | .idle => if ids.Nodup ∧ ids.toFinset = s.typeSets type then s.setClient c (.executing ids) else s
    | _ => s
  | .advance c => s.advance c
  | .deliver task now success => match s.queue[task]? with
    | none => s
    | some hook => s.executeHook validateURL hook now success

def init : HookState π := ⟨fun _ => none,fun _ => ∅,[],fun _ => .idle,fun _ => none⟩

def Settled (s : HookState π) (id : String) : Prop := ∀ c, (s.clients c).target ≠ some id

def Busy (s : HookState π) (c : π) (id : String) : Prop := ∃ c' ≠ c, (s.clients c').target = some id

/-- The id is in the set of this type only. -/
def Filed (s : HookState π) (id : String) (type : HookType) : Prop := ∀ type', id ∈ s.typeSets type' ↔ type' = type

/-- What is promised of the hooks at a moment. -/
structure Faithful (s : HookState π) : Prop where
  configuration : ∀ id, (s.hooks id).map Hook.toHookConfig = s.latest id
  listing : ∀ type hook, s.Settled hook.id → (hook ∈ s.listHooks type.text ↔ s.hooks hook.id = some hook ∧ hook.type = type)

/-- When a step keeps the promise. -/
def Clean (validateURL : String → Option String) (s : HookState π) : HookEvent π → Prop
  | .advance c => match s.clients c with
    -- The id is in no set of another type, unless the hook is gone again.
    | .registering hook => s.Busy c hook.id ∨
        ∀ stored, s.hooks hook.id = some stored → stored.type = hook.type ∧ ∀ type, hook.id ∈ s.typeSets type → type = hook.type
    -- The hook has not been deleted since it was read, and nobody else has changed its type.
    | .storing hookID hook _ => (s.hooks hookID).isSome ∧ (s.Busy c hookID ∨ s.Filed hookID hook.type)
    -- If the hook has been registered again, then with the other type.
    | .removing hookID type => s.Busy c hookID ∨
        ∀ stored, s.hooks hookID = some stored → stored.type ≠ type ∧ hookID ∈ s.typeSets stored.type
    | _ => True
  -- The hook is still stored with the configuration that the task carries.
  | .deliver task _ _ => ∀ hook, s.queue[task]? = some hook → (validateHook validateURL hook.request).isOk = true →
      ∃ stored, s.hooks hook.id = some stored ∧ stored.toHookConfig = hook.toHookConfig
  | _ => True

end HookState

end LedgerForge.Hooks
