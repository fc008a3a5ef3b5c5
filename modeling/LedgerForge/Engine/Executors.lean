import LedgerForge.Engine.GroupLinks
import LedgerForge.Engine.Posters
import LedgerForge.Library.EventRuns

/-! # Executors racing for intents

Workers, coalesced batches and recovery passes take up the same intents at the same time. Each of them
builds its queue copies from what it sees at its start, reads its balances one at a time, and runs one
database transaction at the end, or crashes before it; a message may be delivered again at any time.
-/

namespace LedgerForge.Executors

open VersionedStore Database Engine Posters List

/-- An executor at work on its queue copies, with the balances it has read so far. -/
structure Executor where
  copies : List Transaction
  coalesced : Bool
  reads : List Balance
deriving DecidableEq

/-- The engine and the executors at work. Its queue holds every copy that was made. -/
structure Cluster where
  engine : Engine
  executors : List Executor
deriving DecidableEq

/-- One atomic action. The answers of reference lookups may be outdated. -/
inductive Action
  | client (op : Operation)
  | deliver (message : ℕ)
  | coalesce (message : ℕ) (siblings : List (String × String))
  | recover (id copyID : String)
  | read (executor : ℕ) (id : String) (queuedDebit : Option ℤ)
  | finish (executor : ℕ) (existing : String → Bool)
  | reject (executor : ℕ)
  | crash (executor : ℕ)

/-- The database transaction at the end of an execution. -/
def Executor.persist (x : Executor) (existing : String → Bool) (db : Database) : Except String Database :=
  if x.coalesced then
    if x.reads.map Balance.balanceID = collectQueuedCoalescingBalanceIDs x.copies then do
      let st ← prepareQueuedBatch existing x.copies x.reads
      db.recordTransactionsWithBalanceSet st.finalized st.balances
    else .error "failed to load balances for coalesced batch"
  else match x.copies, x.reads with
    | [t], [source,destination] =>
      if source.balanceID = t.source ∧ destination.balanceID = t.destination then
        if existing t.reference then
          .error ("transaction validation failed: reference " ++ t.reference ++ " has already been used")
        else do match ← prepareSingle t source destination with
          | .zero t => db.rejectTransaction t
          | .persist work => db.recordTransactionWithBalances work.transaction work.source work.destination
      else .error "failed to get source and destination balances"
    | _, _ => .error "failed to get source and destination balances"

def Executor.giveUp (x : Executor) (db : Database) : Except String Database :=
  match x.copies with
  | [t] => db.rejectTransaction t
  | _ => .error "batch has no rejection"

namespace Cluster

def empty : Cluster := ⟨.empty,[]⟩

def start (s : Cluster) (made : List Transaction) (x : Executor) : Cluster :=
  ⟨{ s.engine with queue := s.engine.queue ++ made },s.executors ++ [x]⟩

def deliver (s : Cluster) (message : ℕ) : Cluster :=
  match s.engine.queue[message]? with
  | some t => match s.engine.database.withIntentControls t with
    | .ok t => s.start [] ⟨[t],false,[]⟩
    | .error _ => s
  | none => s

/-- A worker takes a message together with intents that have no child at the moment. -/
def coalesce (s : Cluster) (message : ℕ) (siblings : List (String × String)) : Cluster :=
  if s.engine.freshIDs (siblings.map Prod.snd) then match s.engine.queue[message]? with
    | some leader =>
      match canCoalesceQueuedTransaction leader, siblings.mapM fun (id,copyID) => s.engine.database.coalescingSibling id copyID with
      | .ok (), .ok rest => s.start rest ⟨leader :: rest,true,[]⟩
      | _, _ => s
    | none => s
  else s

/-- Recovery takes an intent that has no child at the moment. -/
def recover (s : Cluster) (id copyID : String) : Cluster :=
  if s.engine.freshIDs [copyID] then match s.engine.database.findTransaction id with
    | some r =>
      if r.status = .queued ∧ s.engine.database.childless id = true then match r.toQueuedTransaction with
        | .ok t => s.start [t.createQueueCopy t.reference copyID] ⟨[t.createQueueCopy t.reference copyID],false,[]⟩
        | .error _ => s
      else s
    | none => s
  else s

def read (s : Cluster) (i : ℕ) (id : String) (queuedDebit : Option ℤ) : Cluster :=
  match s.executors[i]?, s.engine.database.findBalance id with
  | some x, some c =>
    { s with executors := s.executors.set i { x with reads := x.reads ++ [loadBalance c queuedDebit] } }
  | _, _ => s

def finish (s : Cluster) (i : ℕ) (f : Executor → Database → Except String Database) : Cluster :=
  match s.executors[i]? with
  | some x => match f x s.engine.database with
    | .ok db => ⟨{ s.engine with database := db },s.executors.eraseIdx i⟩
    | .error _ => { s with executors := s.executors.eraseIdx i }
  | none => s

def step (s : Cluster) : Action → Cluster
  | .client op => { s with engine := s.engine.step op }
  | .deliver message => s.deliver message
  | .coalesce message siblings => s.coalesce message siblings
  | .recover id copyID => s.recover id copyID
  | .read i id queuedDebit => s.read i id queuedDebit
  | .finish i existing => s.finish i fun x db => x.persist existing db
  | .reject i => s.finish i Executor.giveUp
  | .crash i => { s with executors := s.executors.eraseIdx i }

def run (actions : List Action) : Cluster := actions.foldl step empty

/-- Executors work on copies that were made, and on balances that were read. -/
structure Sound (s : Cluster) : Prop where
  engine : s.engine.Sound
  copies : ∀ x ∈ s.executors, ∀ t ∈ x.copies, t ∈ s.engine.queue
  eligible : ∀ x ∈ s.executors, x.coalesced = true → ∀ t ∈ x.copies, canCoalesceQueuedTransaction t = .ok ()
  reads : ∀ x ∈ s.executors, ∀ b ∈ x.reads, ReadFrom s.engine.database b

variable {s : Cluster} {x : Executor}

theorem Sound.message (h : s.Sound) (hx : x ∈ s.executors) {t : Transaction}
    (ht : t ∈ x.copies) : ∃ i, Message s.engine.database.transactions t i :=
  h.engine.messages t (h.copies x hx t ht)

/-- What a committed database transaction of an executor appends. -/
theorem persist_appended (h : s.Sound) (hx : x ∈ s.executors) {existing : String → Bool}
    {db : Database} (hp : x.persist existing s.engine.database = .ok db) :
    ∃ rs, Appended s.engine { s.engine with database := db } rs := by
  rw [Executor.persist] at hp
  split at hp
  · rename_i hcoalesced
    obtain ⟨hids,hp⟩ := ok_of_check hp
    obtain ⟨st,hst,hrecord⟩ := bind_ok hp
    obtain ⟨rs,happended,-⟩ := prepared_batch_appended h.engine
      (fun t ht => ⟨h.message hx ht,h.eligible x hx hcoalesced t ht⟩) hids (fun b hb => (h.reads x hx b hb).1) hst hrecord
    exact ⟨rs,happended⟩
  · split at hp
    · rename_i t source destination hcopies hreads
      obtain ⟨hids,hp⟩ := ok_of_check hp
      obtain ⟨-,hp⟩ := ok_of_guard hp
      obtain ⟨prepared,hprepared,hrecord⟩ := bind_ok hp
      obtain ⟨i,hm⟩ := h.message hx (hcopies ▸ mem_singleton_self t)
      have houtcome : SingleOutcome s.engine.database t true db := by
        cases prepared with
        | zero t' =>
          obtain ⟨rfl,hzero⟩ := prepareSingle_zero hids.1 hids.2 hprepared
          obtain ⟨r,hr,hinserted⟩ := recordTransaction_ok hrecord
          exact .rejected rfl hzero hr hinserted
        | persist work =>
          have hfresh : ∀ b ∈ [source,destination], Fresh s.engine.database.balances b.cell :=
            fun b hb => (h.reads x hx b (hreads ▸ hb)).1
          obtain ⟨r,a,p,-,hstored,hne,hposted⟩ := prepared_posted h.engine.accounted.unique
            (hm.postable h.engine.journal).1 hids.1 hids.2 (hfresh source (by simp)) (hfresh destination (by simp))
            hprepared hrecord
          exact .posted hstored hne hposted
      obtain ⟨rs,happended,-⟩ := outcome_appended h.engine hm houtcome
      exact ⟨rs,happended⟩
    · cases hp

theorem giveUp_appended (h : s.Sound) (hx : x ∈ s.executors) {db : Database}
    (hp : x.giveUp s.engine.database = .ok db) : ∃ rs, Appended s.engine { s.engine with database := db } rs := by
  rw [Executor.giveUp] at hp
  split at hp
  · rename_i t hcopies
    obtain ⟨i,hm⟩ := h.message hx (hcopies ▸ mem_singleton_self t)
    obtain ⟨r,hr,hinserted⟩ := recordTransaction_ok hp
    exact ⟨[r],(rejected_appended h.engine hm hr hinserted).1⟩
  · cases hp

theorem Sound.finish (h : s.Sound) (i : ℕ) {f : Executor → Database → Except String Database}
    (hf : ∀ x ∈ s.executors, ∀ db, f x s.engine.database = .ok db →
      ∃ rs, Appended s.engine { s.engine with database := db } rs) : (s.finish i f).Sound := by
  have hkeep : ∀ y ∈ s.executors.eraseIdx i, y ∈ s.executors := fun y hy => mem_of_mem_eraseIdx hy
  rw [Cluster.finish]
  split
  · rename_i x hx
    split
    · rename_i db hdb
      obtain ⟨rs,happended⟩ := hf x (mem_of_getElem? hx) db hdb
      exact ⟨h.engine.appended happended,fun y hy => h.copies y (hkeep y hy),fun y hy => h.eligible y (hkeep y hy),
        fun y hy b hb => (h.reads y (hkeep y hy) b hb).posted happended.posted⟩
    · exact ⟨h.engine,fun y hy => h.copies y (hkeep y hy),fun y hy => h.eligible y (hkeep y hy),
        fun y hy => h.reads y (hkeep y hy)⟩
  · exact h

theorem Sound.start (h : s.Sound) {made : List Transaction}
    (hmade : ∀ t ∈ made, ∃ i, Message s.engine.database.transactions t i)
    (hcopies : ∀ t ∈ x.copies, t ∈ s.engine.queue ++ made)
    (heligible : x.coalesced = true → ∀ t ∈ x.copies, canCoalesceQueuedTransaction t = .ok ()) (hreads : x.reads = []) :
    (s.start made x).Sound := by
  have hsplit : ∀ y ∈ s.executors ++ [x], y ∈ s.executors ∨ y = x := fun y hy =>
    (mem_append.mp hy).imp_right mem_singleton.mp
  refine ⟨⟨h.engine.accounted,h.engine.consistent,h.engine.journal,h.engine.bounded,h.engine.rows,h.engine.ids,
    fun t ht => ?_⟩,fun y hy t ht => ?_,fun y hy => ?_,fun y hy b hb => ?_⟩
  · rcases mem_append.mp ht with hold | hnew
    · exact h.engine.messages t hold
    · exact hmade t hnew
  · rcases hsplit y hy with hold | rfl
    · exact mem_append_left _ (h.copies y hold t ht)
    · exact hcopies t ht
  · rcases hsplit y hy with hold | rfl
    · exact h.eligible y hold
    · exact heligible
  · rcases hsplit y hy with hold | rfl
    · exact h.reads y hold b hb
    · rw [hreads] at hb
      exact absurd hb not_mem_nil

theorem Sound.deliver (h : s.Sound) (message : ℕ) : (s.deliver message).Sound := by
  rw [Cluster.deliver]
  split
  · rename_i t ht
    have hmem := mem_of_getElem? ht
    split
    · rename_i t' hcontrols
      obtain ⟨i,hm⟩ := h.engine.messages t hmem
      obtain rfl := withIntentControls_copy hm.copy (h.engine.find hm.mem) hcontrols
      refine h.start (fun _ hu => absurd hu not_mem_nil) (fun u hu => ?_) (fun hc => by cases hc) rfl
      rw [mem_singleton.mp hu,append_nil]
      exact hmem
    · exact h
  · exact h

theorem Sound.coalesce (h : s.Sound) (message : ℕ) (siblings : List (String × String)) :
    (s.coalesce message siblings).Sound := by
  rw [Cluster.coalesce]
  split
  · rename_i hids
    split
    · rename_i leader hleader
      split
      · rename_i rest hcan hrest
        have hrest := siblings_ok h.engine (freshIDs_spec hids).2 hrest
        refine h.start (fun t ht => (hrest t ht).1) (fun t ht => ?_) (fun _ t ht => ?_) rfl
        · rcases mem_cons.mp ht with rfl | ht
          · exact mem_append_left _ (mem_of_getElem? hleader)
          · exact mem_append_right _ ht
        · rcases mem_cons.mp ht with rfl | ht
          · exact hcan
          · exact (hrest t ht).2
      · exact h
    · exact h
  · exact h

theorem Sound.recover (h : s.Sound) (id copyID : String) : (s.recover id copyID).Sound := by
  rw [Cluster.recover]
  split
  · rename_i hids
    split
    · rename_i r hfound
      split
      · rename_i hqueued
        split
        · rename_i t ht
          have hm := message_of_intent h.engine (findTransaction_mem hfound).1 (.inl hqueued.1) ht
            ((freshIDs_spec hids).2 copyID (mem_singleton_self _))
          refine h.start (fun u hu => ?_) (fun u hu => mem_append_right _ hu) (fun hc => by cases hc) rfl
          rw [mem_singleton.mp hu]
          exact ⟨r,hm⟩
        · exact h
      · exact h
    · exact h
  · exact h

theorem Sound.read (h : s.Sound) (i : ℕ) (id : String) (queuedDebit : Option ℤ) :
    (s.read i id queuedDebit).Sound := by
  rw [Cluster.read]
  split
  · rename_i x c hx hc
    have hmem := mem_of_getElem? hx
    refine ⟨h.engine,fun y hy => ?_,fun y hy => ?_,fun y hy b hb => ?_⟩
    · rcases mem_or_eq_of_mem_set hy with hold | rfl
      · exact h.copies y hold
      · exact h.copies x hmem
    · rcases mem_or_eq_of_mem_set hy with hold | rfl
      · exact h.eligible y hold
      · exact h.eligible x hmem
    · rcases mem_or_eq_of_mem_set hy with hold | rfl
      · exact h.reads y hold b hb
      rcases mem_append.mp hb with hb | hb
      · exact h.reads x hmem b hb
      · rw [mem_singleton.mp hb]
        exact readFrom_loadBalance hc queuedDebit
  · exact h

theorem Sound.grown (h : s.Sound) {e : Engine} {rs : List Row} (ha : Appended s.engine e rs) : Sound { s with engine := e } := by
  obtain ⟨ts,hqueue,-⟩ := ha.queue
  refine ⟨h.engine.appended ha,fun x hx t ht => ?_,h.eligible,fun x hx b hb => (h.reads x hx b hb).posted ha.posted⟩
  rw [hqueue]
  exact mem_append_left _ (h.copies x hx t ht)

theorem Sound.client (h : s.Sound) (op : Operation) : Sound { s with engine := s.engine.step op } := by
  have hstep := step_ok h.engine op
  have hsound := hstep.sound h.engine
  cases hstep with
  | created id currency created =>
    refine ⟨hsound,?_,h.eligible,?_⟩
    · rw [created]
      exact h.copies
    · rw [created]
      exact fun x hx b hb => (h.reads x hx b hb).createBalance id currency
  | appended rs appended _ => exact h.grown appended

theorem Sound.step (h : s.Sound) (action : Action) : (s.step action).Sound := by
  cases action with
  | client op => exact h.client op
  | deliver message => exact h.deliver message
  | coalesce message siblings => exact h.coalesce message siblings
  | recover id copyID => exact h.recover id copyID
  | read i id queuedDebit => exact h.read i id queuedDebit
  | finish i existing => exact h.finish i fun x hx db hdb => persist_appended h hx hdb
  | reject i => exact h.finish i fun x hx db hdb => giveUp_appended h hx hdb
  | crash i =>
    have hkeep : ∀ y ∈ s.executors.eraseIdx i, y ∈ s.executors := fun y hy => mem_of_mem_eraseIdx hy
    exact ⟨h.engine,fun y hy => h.copies y (hkeep y hy),fun y hy => h.eligible y (hkeep y hy),
      fun y hy => h.reads y (hkeep y hy)⟩

theorem empty_sound : empty.Sound :=
  ⟨Engine.empty_sound,fun _ hx => absurd hx not_mem_nil,fun _ hx => absurd hx not_mem_nil,fun _ hx => absurd hx not_mem_nil⟩

theorem sound_run (actions : List Action) : (run actions).Sound :=
  EventRuns.invariant Sound empty_sound (fun _ action h => h.step action) actions

end Cluster

def completions (rows : List Row) (i : Row) : List Row :=
  rows.filter fun r => r.parentTransaction = i.transactionID ∧ r.IsTerminal

variable {rows : List Row} {i : Row}

theorem mem_completions {r : Row} :
    r ∈ completions rows i ↔ r ∈ rows ∧ r.parentTransaction = i.transactionID ∧ r.IsTerminal := by
  rw [completions,mem_filter,decide_eq_true_eq]

theorem completions_length (h : Journal rows) (hi : i ∈ rows) (hintent : i.IsIntent) :
    (completions rows i).length ≤ 1 := by
  refine Keyed.length_le_one (h.ids_nodup.of_map.filter _) fun r hr r' hr' => ?_
  obtain ⟨hr,hp,ht⟩ := mem_completions.mp hr
  obtain ⟨hr',hp',ht'⟩ := mem_completions.mp hr'
  exact h.terminal_unique hi hintent hr hp ht hr' hp' ht'

theorem repeats_of_completion (h : Journal rows) {r : Row} (hi : i ∈ rows) (hintent : i.IsIntent)
    (hr : r ∈ completions rows i) (hmoves : r.movement.isSome) : r.Repeats i := by
  obtain ⟨hr,hp,ht⟩ := mem_completions.mp hr
  cases h.intentChild hi hintent hr hp with
  | execution _ _ _ repeats => exact repeats
  | rejection status =>
    rw [movement_of_rejected status] at hmoves
    cases hmoves
  | completion _ _ _ repeats => exact repeats
  | void _ status => rcases ht with hs | hs | hs <;> rw [status] at hs <;> cases hs

/-- In every interleaving each queued intent ends at most once; the row that ends it moves the intent's
amount between its balances if it moves anything, and the counters hold exactly what the rows move. -/
theorem completed_once (actions : List Action) :
    (∀ i ∈ (Cluster.run actions).engine.database.transactions, i.status = .queued →
      (completions (Cluster.run actions).engine.database.transactions i).length ≤ 1 ∧
      ∀ r ∈ completions (Cluster.run actions).engine.database.transactions i, r.movement.isSome → r.Repeats i) ∧
    ∀ c ∈ (Cluster.run actions).engine.database.balances,
      c.value.counters = replay (Cluster.run actions).engine.database.transactions c.key := by
  have hsound := (Cluster.sound_run actions).engine
  constructor
  · intro i hi hqueued
    exact ⟨completions_length hsound.journal hi (.inl hqueued),fun r hr => repeats_of_completion hsound.journal hi (.inl hqueued) hr⟩
  · intro c hc
    exact hsound.accounted.replayed c.key c ((mem_balances_iff hsound.accounted.unique).mp hc)

/-- A worker and a recovery pass take up the same intent; the second one looked the reference up too early. -/
def workerAndRecovery : List Action :=
  [.client (.createBalance "bln_a" "USD"),.client (.createBalance "bln_b" "USD"),
    .client (.post (transferRequest "x" 100) none "txn_1" "txn_2" none),.deliver 0,.recover "txn_1" "txn_3",
    .read 0 "bln_a" none,.read 0 "bln_b" none,.finish 0 fun _ => false,
    .read 0 "bln_a" none,.read 0 "bln_b" none,.finish 0 fun _ => false]

theorem worker_and_recovery_complete_once : (Cluster.run (workerAndRecovery.take 5)).executors.length = 2 ∧
    (Cluster.run workerAndRecovery).executors = [] ∧ ∃ i ∈ (Cluster.run workerAndRecovery).engine.database.transactions,
      i.status = .queued ∧ (completions (Cluster.run workerAndRecovery).engine.database.transactions i).length = 1 := by
  refine ⟨by decide +kernel,by decide +kernel,?_⟩
  obtain ⟨i,hi,hqueued,hsome⟩ : ∃ i ∈ (Cluster.run workerAndRecovery).engine.database.transactions, i.status = .queued ∧
      1 ≤ (completions (Cluster.run workerAndRecovery).engine.database.transactions i).length := by decide +kernel
  exact ⟨i,hi,hqueued,le_antisymm ((completed_once workerAndRecovery).1 i hi hqueued).1 hsome⟩

end LedgerForge.Executors
