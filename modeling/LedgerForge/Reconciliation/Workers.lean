import LedgerForge.Library.EventRuns
import LedgerForge.Library.Keyed
import LedgerForge.Reconciliation.Groups

/-! # One-to-many and many-to-one reconciliation

The calling goroutine launches, for every page of groups, one worker per input and then collects what they send. A worker
takes a token of its page, copies the keys of the groups that are left, claims the first one that matches and sends one
match per member; if none is left for it, it sends the input's id. Both channels have room for one value per input.
-/

namespace LedgerForge.Reconciliation

/-- A page of groups, as a grouped query returns it when there are rows left. -/
structure GroupPage where
  groups : List (String × List Transaction)
  nonempty : groups ≠ []
  distinct : (groups.map Prod.fst).Nodup
  members : ∀ g ∈ groups, g.2 ≠ []

namespace GroupPage

variable (p : GroupPage)

def keys : List String := p.groups.map Prod.fst

def group (groupKey : String) : List Transaction := ((Keyed.find Prod.fst p.groups groupKey).map Prod.snd).getD []

variable {p}

theorem group_ne_nil {key : String} (h : key ∈ p.keys) : p.group key ≠ [] := by
  obtain ⟨g,hg⟩ := Keyed.exists_find h
  rw [group,hg]
  exact p.members g (Keyed.find_mem hg)

theorem keys_ne_nil : p.keys ≠ [] := by
  simpa [keys] using p.nonempty

def ofGroup (rows : List (String × Transaction)) (h : rows ≠ []) : GroupPage where
  groups := Grouping.group rows
  nonempty := mt Grouping.group_eq_nil.mp h
  distinct := Grouping.group_keys_nodup rows
  members _ hg := (Grouping.mem_group.mp hg).2

end GroupPage

/-- One call of the reconciler: its inputs, and the pages that the datasource serves before one is empty or fails. -/
structure Call where
  singleTxns : List Transaction
  pages : List GroupPage
  matchingRules : List MatchingRule
  texts : TextFunctions
  isExternalGrouped : Bool
  maxWorkers : ℕ
  nonempty : singleTxns ≠ []
  distinct : (singleTxns.map Transaction.transactionID).Nodup
  workers_pos : 0 < maxWorkers

structure Match where
  externalTransactionID : String
  internalTransactionID : String
  amount : Float64
  date : ℤ
deriving DecidableEq

namespace Call

variable (c : Call)

def capacity : ℕ := c.singleTxns.length

def accepts (singleTxn : Transaction) (p : GroupPage) (groupKey : String) : Bool :=
  matchesGroup c.texts singleTxn (p.group groupKey) c.matchingRules

def message (singleTxn groupedTxn : Transaction) : Match :=
  if c.isExternalGrouped then ⟨groupedTxn.transactionID,singleTxn.transactionID,groupedTxn.amount,groupedTxn.createdAt⟩
  else ⟨singleTxn.transactionID,groupedTxn.transactionID,groupedTxn.amount,groupedTxn.createdAt⟩

def inputID (m : Match) : String := if c.isExternalGrouped then m.internalTransactionID else m.externalTransactionID

@[simp] theorem inputID_message (singleTxn groupedTxn : Transaction) :
    c.inputID (c.message singleTxn groupedTxn) = singleTxn.transactionID := by
  unfold inputID message
  cases c.isExternalGrouped <;> rfl

theorem capacity_pos : 0 < c.capacity := List.length_pos_iff.mpr c.nonempty

end Call

/-- Where a worker stands. -/
inductive Phase
  /-- Waits for a token. -/
  | ready
  | holding
  /-- Goes through the keys that it copied. -/
  | scanning (keys : List String)
  /-- Has claimed the group and sends its members. -/
  | sending (groupKey : String) (sent rest : List Transaction)
  /-- Found no group. -/
  | reporting
  | releasing (matched : Option String)
  | done (matched : Option String)

namespace Phase

def holds : Phase → Bool
  | .ready => false
  | .done _ => false
  | _ => true

def isDone : Phase → Bool
  | .done _ => true
  | _ => false

def claim : Phase → Option String
  | .sending key _ _ => some key
  | .releasing matched => matched
  | .done matched => matched
  | _ => none

def reported : Phase → Bool
  | .releasing none => true
  | .done none => true
  | _ => false

end Phase

structure Worker where
  number : ℕ
  page : GroupPage
  txn : Transaction
  phase : Phase

/-- The two channels. -/
structure Channels where
  matchChan : List Match
  unmatchedChan : List String

/-- A step of a worker of the page, with the keys of the page that are left. -/
inductive WorkerStep (c : Call) (holders : ℕ) (p : GroupPage) (txn : Transaction) :
    Phase → List String → Channels → Phase → List String → Channels → Prop
  | acquire {groupMap ch} (htoken : holders < c.maxWorkers) : WorkerStep c holders p txn .ready groupMap ch .holding groupMap ch
  | snapshot {groupMap ch} (keys : List String) (hkeys : keys.Perm groupMap) :
      WorkerStep c holders p txn .holding groupMap ch (.scanning keys) groupMap ch
  | skip {groupMap ch} (key : String) (keys : List String) (hskip : ¬ (c.accepts txn p key = true ∧ key ∈ groupMap)) :
      WorkerStep c holders p txn (.scanning (key :: keys)) groupMap ch (.scanning keys) groupMap ch
  | claim {groupMap ch} (key : String) (keys : List String) (haccepts : c.accepts txn p key = true) (hleft : key ∈ groupMap) :
      WorkerStep c holders p txn (.scanning (key :: keys)) groupMap ch (.sending key [] (p.group key)) (groupMap.erase key) ch
  | exhausted {groupMap ch} : WorkerStep c holders p txn (.scanning []) groupMap ch .reporting groupMap ch
  | send {groupMap ch} (key : String) (sent : List Transaction) (groupedTxn : Transaction) (rest : List Transaction)
      (hroom : ch.matchChan.length < c.capacity) :
      WorkerStep c holders p txn (.sending key sent (groupedTxn :: rest)) groupMap ch
        (.sending key (sent ++ [groupedTxn]) rest) groupMap
        { ch with matchChan := ch.matchChan ++ [c.message txn groupedTxn] }
  | sent {groupMap ch} (key : String) (sent : List Transaction) :
      WorkerStep c holders p txn (.sending key sent []) groupMap ch (.releasing (some key)) groupMap ch
  | report {groupMap ch} (hroom : ch.unmatchedChan.length < c.capacity) :
      WorkerStep c holders p txn .reporting groupMap ch (.releasing none) groupMap
        { ch with unmatchedChan := ch.unmatchedChan ++ [txn.transactionID] }
  | release {groupMap ch} (matched : Option String) :
      WorkerStep c holders p txn (.releasing matched) groupMap ch (.done matched) groupMap ch

/-- Where the calling goroutine stands. -/
inductive Main
  /-- Asks for the groups of the page. -/
  | fetching (number : ℕ)
  | launching (number : ℕ) (page : GroupPage) (rest : List Transaction)
  /-- Looks whether all groups of the page are claimed. -/
  | checking (number : ℕ)
  /-- No page was processed: the deferred function sends all inputs as unmatched. -/
  | deferred (rest : List Transaction)
  /-- Ranges over the matches; the goroutine that closes the channels is started. -/
  | collecting
  | draining
  | returned

def Main.started : Main → Bool
  | .collecting => true
  | .draining => true
  | .returned => true
  | _ => false

/-- What the caller and the closing goroutine work on. -/
structure Front extends Channels where
  main : Main
  matchClosed : Bool
  unmatchedClosed : Bool
  results : List Match
  unmatched : List String

/-- Steps of the caller that launch nothing, and of the closing goroutine. -/
inductive FrontStep (c : Call) (workers : List Worker) (groupMap : ℕ → List String) : Front → Front → Prop
  | fetchEnd {f} (k : ℕ) (hmain : f.main = .fetching k) (hend : c.pages[k]? = none) :
      FrontStep c workers groupMap f { f with main := if k = 0 then .deferred c.singleTxns else .collecting }
  | launched {f} (k : ℕ) (p : GroupPage) (hmain : f.main = .launching k p []) :
      FrontStep c workers groupMap f { f with main := .checking k }
  | check {f} (k : ℕ) (hmain : f.main = .checking k) :
      FrontStep c workers groupMap f { f with main := if groupMap k = [] then .collecting else .fetching (k+1) }
  | deferredSend {f} (txn : Transaction) (rest : List Transaction) (hmain : f.main = .deferred (txn :: rest))
      (hroom : f.unmatchedChan.length < c.capacity) :
      FrontStep c workers groupMap f
        { f with main := .deferred rest, unmatchedChan := f.unmatchedChan ++ [txn.transactionID] }
  | deferredEnd {f} (hmain : f.main = .deferred []) : FrontStep c workers groupMap f { f with main := .collecting }
  | collect {f} (m : Match) (rest : List Match) (hmain : f.main = .collecting) (hchan : f.matchChan = m :: rest) :
      FrontStep c workers groupMap f { f with matchChan := rest, results := f.results ++ [m] }
  | collected {f} (hmain : f.main = .collecting) (hchan : f.matchChan = []) (hclosed : f.matchClosed = true) :
      FrontStep c workers groupMap f { f with main := .draining }
  | drain {f} (id : String) (rest : List String) (hmain : f.main = .draining) (hchan : f.unmatchedChan = id :: rest) :
      FrontStep c workers groupMap f { f with unmatchedChan := rest, unmatched := f.unmatched ++ [id] }
  | drained {f} (hmain : f.main = .draining) (hchan : f.unmatchedChan = []) (hclosed : f.unmatchedClosed = true) :
      FrontStep c workers groupMap f { f with main := .returned }
  | closeMatch {f} (hstarted : f.main.started = true) (hopen : f.matchClosed = false)
      (hdone : ∀ w ∈ workers, w.phase.isDone = true) : FrontStep c workers groupMap f { f with matchClosed := true }
  | closeUnmatched {f} (hclosed : f.matchClosed = true) (hopen : f.unmatchedClosed = false) :
      FrontStep c workers groupMap f { f with unmatchedClosed := true }

structure CallState extends Front where
  workers : List Worker
  /-- The keys of each page that are not claimed. -/
  groupMap : ℕ → List String

def CallState.holders (s : CallState) (k : ℕ) : ℕ := s.workers.countP fun w => w.number = k ∧ w.phase.holds = true

def CallState.initial : CallState where
  main := .fetching 0
  matchClosed := false
  unmatchedClosed := false
  results := []
  unmatched := []
  matchChan := []
  unmatchedChan := []
  workers := []
  groupMap _ := []

inductive CallStep (c : Call) : CallState → CallState → Prop
  | front {s : CallState} (f : Front) (hstep : FrontStep c s.workers s.groupMap s.toFront f) :
      CallStep c s { s with toFront := f }
  | fetch {s : CallState} (k : ℕ) (p : GroupPage) (hmain : s.main = .fetching k) (hpage : c.pages[k]? = some p) :
      CallStep c s
        { s with main := .launching k p c.singleTxns, groupMap := Function.update s.groupMap k p.keys }
  | launch {s : CallState} (k : ℕ) (p : GroupPage) (txn : Transaction) (rest : List Transaction)
      (hmain : s.main = .launching k p (txn :: rest)) :
      CallStep c s { s with main := .launching k p rest, workers := s.workers ++ [⟨k,p,txn,.ready⟩] }
  | worker {s : CallState} (pre : List Worker) (w : Worker) (post : List Worker) (phase : Phase) (groupMap : List String)
      (ch : Channels) (hworkers : s.workers = pre ++ w :: post)
      (hstep : WorkerStep c (s.holders w.number) w.page w.txn w.phase (s.groupMap w.number) s.toChannels phase groupMap ch) :
      CallStep c s
        { s with toChannels := ch, workers := pre ++ { w with phase := phase } :: post,
                 groupMap := Function.update s.groupMap w.number groupMap }

def Call.Reaches (c : Call) : CallState → Prop := Relation.ReflTransGen (CallStep c) .initial

end LedgerForge.Reconciliation
