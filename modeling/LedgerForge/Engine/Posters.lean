import LedgerForge.Engine.BatchEffects

/-! # Concurrent posters

Any number of posters interleave without locks. A poster reads its balances one at a time, each at its
own moment, computes new counters in memory, and runs one atomic database transaction that inserts its
rows and writes every balance it read under the version it saw.
-/

namespace LedgerForge.Posters

open VersionedStore List Database Float64

/-- The work of one poster: a single posting, commit or void, or a coalesced batch. -/
inductive Job
  | single (t : Transaction) (postable : t.Postable)
  | batch (ts : List Transaction) (coalescable : ∀ t ∈ ts, canCoalesceQueuedTransaction t = .ok ())

/-- The balances a job reads, in this order. -/
def Job.needs : Job → List String
  | .single t _ => [t.source,t.destination]
  | .batch ts _ => collectQueuedCoalescingBalanceIDs ts

/-- A poster with the balances it has read so far. -/
structure Poster where
  job : Job
  reads : List Balance
  aligned : reads.map Balance.balanceID <+: job.needs

def Poster.read (p : Poster) (c : StoredBalance) (queuedDebit : Option ℤ) : Poster :=
  if h : (p.reads ++ [loadBalance c queuedDebit]).map Balance.balanceID <+: p.job.needs then ⟨p.job,_,h⟩ else p

/-- The database transaction of a poster. `existing` is what its reference lookups answered, at
whatever time they ran; a zero amount is discarded without a row. -/
def Poster.persist (p : Poster) (existing : String → Bool) (db : Database) : Except String Database :=
  match p.job with
  | .single t _ =>
    match p.reads with
    | [source,destination] =>
      if existing t.reference then .error ("reference " ++ t.reference ++ " has already been used")
      else do match ← prepareSingle t source destination with
        | .zero _ => .ok db
        | .persist work => db.recordTransactionWithBalances work.transaction work.source work.destination
    | _ => .error "failed to get source and destination balances"
  | .batch ts _ =>
    if p.reads.map Balance.balanceID = collectQueuedCoalescingBalanceIDs ts then do
      let st ← prepareQueuedBatch existing ts p.reads
      db.recordTransactionsWithBalanceSet st.finalized st.balances
    else .error "failed to load balances for coalesced batch"

/-- A committed transaction replaces the database; a failed one leaves it alone. -/
def Poster.outcome (p : Poster) (existing : String → Bool) (db : Database) : Database :=
  match p.persist existing db with
  | .ok db' => db'
  | .error _ => db

structure System where
  database : Database
  posters : List Poster

def System.empty : System := ⟨.empty,[]⟩

/-- One atomic action of the environment or of one poster. Intents and rejections are recorded by
plain inserts that move no balance. -/
inductive Action
  | createBalance (id currency : String)
  | record (t : Transaction)
  | start (job : Job)
  | read (poster : ℕ) (id : String) (queuedDebit : Option ℤ)
  | finish (poster : ℕ) (existing : String → Bool)
  | abandon (poster : ℕ)

def System.record (s : System) (t : Transaction) : System :=
  if (t.columns 0 0).movement.isSome then s
  else match s.database.recordTransaction t with
    | .ok db => { s with database := db }
    | .error _ => s

def System.read (s : System) (i : ℕ) (id : String) (queuedDebit : Option ℤ) : System :=
  match s.posters[i]?, s.database.findBalance id with
  | some p, some c => { s with posters := s.posters.set i (p.read c queuedDebit) }
  | _, _ => s

def System.finish (s : System) (i : ℕ) (existing : String → Bool) : System :=
  match s.posters[i]? with
  | some p => ⟨p.outcome existing s.database,s.posters.eraseIdx i⟩
  | none => s

def System.step (s : System) : Action → System
  | .createBalance id currency => { s with database := s.database.createBalance id currency }
  | .record t => s.record t
  | .start job => { s with posters := s.posters ++ [⟨job,[], nil_prefix⟩] }
  | .read i id queuedDebit => s.read i id queuedDebit
  | .finish i existing => s.finish i existing
  | .abandon i => { s with posters := s.posters.eraseIdx i }

def System.run (actions : List Action) : System := actions.foldl System.step .empty

/-- A balance that was read from the store at some time: it still exists and the read is not newer. -/
def ReadFrom (db : Database) (b : Balance) : Prop :=
  Fresh db.balances b.cell ∧ (db.findBalance b.balanceID).isSome

/-- The tables are accounted for and no read of a poster is newer than the store. -/
structure Sound (s : System) : Prop where
  accounted : s.database.Accounted
  reads : ∀ p ∈ s.posters, ∀ b ∈ p.reads, ReadFrom s.database b

theorem collectQueuedCoalescingBalanceIDs_ne {ts : List Transaction} {id : String}
    (h : id ∈ collectQueuedCoalescingBalanceIDs ts) : id ≠ "" := by
  rw [collectQueuedCoalescingBalanceIDs,mem_mergeSort,mem_dedup,mem_filter] at h
  simpa using h.2

variable {db : Database} {b : Balance} {s : System}

/-- What a committed database transaction of a poster did: nothing, or it wrote every balance it read
at the version it saw and posted its rows. -/
theorem persist_ok {db' : Database} {p : Poster} {existing : String → Bool} (hn : db.UniqueBalances)
    (hfresh : ∀ b ∈ p.reads, Fresh db.balances b.cell) (h : p.persist existing db = .ok db') :
    db' = db ∨ Unchanged db p.reads ∧ ∃ rows, Posted db db' rows := by
  rw [Poster.persist] at h
  split at h
  · rename_i t hpostable hjob
    split at h
    · rename_i source destination hreads
      obtain ⟨-,h⟩ := ok_of_guard h
      obtain ⟨prepared,hprepared,h⟩ := bind_ok h
      cases prepared with
      | zero _ =>
        cases h
        exact .inl rfl
      | persist work =>
        rw [hreads] at hfresh ⊢
        obtain ⟨a,hex⟩ := prepareSingle_persist hprepared
        obtain ⟨-,hunchanged,r,-,hposted⟩ := recordTransactionWithBalances_posted hn
          (hfresh source (by simp)) (hfresh destination (by simp)) hex hpostable h
        exact .inr ⟨hunchanged,[r],hposted⟩
    · cases h
  · rename_i ts hts hjob
    obtain ⟨hids,h⟩ := ok_of_check h
    obtain ⟨st,hst,h⟩ := bind_ok h
    obtain ⟨hmoved,-⟩ := prepareQueuedBatch_ok hts hst
    have hne : ∀ b ∈ p.reads, b.balanceID ≠ "" := fun b hb =>
      collectQueuedCoalescingBalanceIDs_ne (hids ▸ mem_map_of_mem hb)
    obtain ⟨hunchanged,rows,-,hposted⟩ := recordTransactionsWithBalanceSet_posted hn
      (hids ▸ (mergeSort_perm _ _).nodup_iff.mpr (nodup_dedup _)) hne hfresh hmoved h
    exact .inr ⟨hunchanged,rows,hposted⟩

theorem readFrom_loadBalance {id : String} {c : StoredBalance} (hc : db.findBalance id = some c)
    (queuedDebit : Option ℤ) : ReadFrom db (loadBalance c queuedDebit) := by
  have hkey : c.key = id := Keyed.find_key hc
  have hfound : lookup db.balances c.key = some c := hkey ▸ hc
  refine ⟨fun c' hc' => ?_,?_⟩
  · cases hfound.symm.trans hc'
    exact ⟨le_rfl,fun _ => rfl⟩
  · rw [findBalance,show (loadBalance c queuedDebit).balanceID = c.key from rfl,hfound]
    rfl

theorem Poster.mem_read {p : Poster} {c : StoredBalance} {queuedDebit : Option ℤ}
    (h : b ∈ (p.read c queuedDebit).reads) : b ∈ p.reads ∨ b = loadBalance c queuedDebit := by
  rw [Poster.read] at h
  split at h
  · exact (mem_append.mp h).imp_right mem_singleton.mp
  · exact .inl h

theorem ReadFrom.createBalance (h : ReadFrom db b) (id currency : String) :
    ReadFrom (db.createBalance id currency) b := by
  obtain ⟨hfresh,hsome⟩ := h
  cases hn : db.findBalance id with
  | some c =>
    rw [Database.createBalance,hn]
    exact ⟨hfresh,hsome⟩
  | none =>
    have hfind := Database.findBalance_createBalance hn currency b.balanceID
    rw [if_neg fun he => by rw [he,hn] at hsome; cases hsome] at hfind
    refine ⟨fun c hc => hfresh c ?_,hfind ▸ hsome⟩
    exact hfind.symm.trans hc

theorem ReadFrom.posted {db' : Database} {rows : List Row} (h : ReadFrom db b) (hp : Posted db db' rows) :
    ReadFrom db' b := by
  refine ⟨hp.fresh _ h.1,?_⟩
  have hsome := h.2
  rw [isSome_findBalance] at hsome ⊢
  rw [hp.keys]
  exact hsome

theorem Sound.record (h : Sound s) (t : Transaction) : Sound (s.record t) := by
  rw [System.record]
  split
  · exact h
  rename_i hmovement
  split
  · rename_i db hdb
    obtain ⟨r,hr,hinserted⟩ := recordTransaction_ok hdb
    obtain ⟨a,p,-,-,-,-,rfl⟩ := hr.columns
    have hnone : (t.columns a p).movement = none := Option.not_isSome_iff_eq_none.mp hmovement
    have hposted := hinserted.posted hnone
    exact ⟨h.accounted.posted hposted,fun q hq b hb => (h.reads q hq b hb).posted hposted⟩
  · exact h

theorem Sound.read (h : Sound s) (i : ℕ) (id : String) (queuedDebit : Option ℤ) :
    Sound (s.read i id queuedDebit) := by
  rw [System.read]
  split
  · rename_i p c hp hc
    refine ⟨h.accounted,fun q hq b hb => ?_⟩
    rcases mem_or_eq_of_mem_set hq with hq | rfl
    · exact h.reads q hq b hb
    rcases Poster.mem_read hb with hb | rfl
    · exact h.reads p (mem_of_getElem? hp) b hb
    · exact readFrom_loadBalance hc queuedDebit
  · exact h

theorem Sound.finish (h : Sound s) (i : ℕ) (existing : String → Bool) : Sound (s.finish i existing) := by
  rw [System.finish]
  split
  · rename_i p hp
    have hmem := mem_of_getElem? hp
    have hkeep : ∀ q ∈ s.posters.eraseIdx i, q ∈ s.posters := fun q hq => mem_of_mem_eraseIdx hq
    rw [Poster.outcome]
    split
    · rename_i db hdb
      rcases persist_ok h.accounted.unique (fun b hb => (h.reads p hmem b hb).1) hdb with rfl | ⟨-,rows,hposted⟩
      · exact ⟨h.accounted,fun q hq => h.reads q (hkeep q hq)⟩
      · exact ⟨h.accounted.posted hposted,fun q hq b hb => (h.reads q (hkeep q hq) b hb).posted hposted⟩
    · exact ⟨h.accounted,fun q hq => h.reads q (hkeep q hq)⟩
  · exact h

theorem Sound.step (h : Sound s) (action : Action) : Sound (s.step action) := by
  cases action with
  | createBalance id currency => exact ⟨h.accounted.createBalance id currency,fun p hp b hb => (h.reads p hp b hb).createBalance id currency⟩
  | record t => exact h.record t
  | start job =>
    refine ⟨h.accounted,fun p hp b hb => ?_⟩
    rcases mem_append.mp hp with hp | hp
    · exact h.reads p hp b hb
    · rw [mem_singleton.mp hp] at hb
      exact absurd hb not_mem_nil
  | read i id queuedDebit => exact h.read i id queuedDebit
  | finish i existing => exact h.finish i existing
  | abandon i => exact ⟨h.accounted,fun p hp => h.reads p (mem_of_mem_eraseIdx hp)⟩

theorem sound_run (actions : List Action) : Sound (System.run actions) := by
  have hrun : ∀ (actions : List Action) s, Sound s → Sound (actions.foldl System.step s) := by
    intro actions
    induction actions with
    | nil => exact fun s h => h
    | cons action actions ih => exact fun s h => ih _ (h.step action)
  exact hrun actions _ ⟨empty_accounted,fun p hp => absurd hp not_mem_nil⟩

/-- In every interleaving the four counters of every balance are the replay of the committed rows in
any order, and a poster one of whose balances has moved on commits neither a row nor a counter. -/
theorem no_lost_update (actions : List Action) :
    (∀ c ∈ (System.run actions).database.balances, ∀ rows, rows.Perm (System.run actions).database.transactions →
      c.value.counters = replay rows c.key) ∧
    ∀ (i : ℕ) (p : Poster) (existing : String → Bool), (System.run actions).posters[i]? = some p →
      (∃ b ∈ p.reads, ∀ c, (System.run actions).database.findBalance b.balanceID = some c → c.version ≠ b.version) →
      ((System.run actions).step (.finish i existing)).database.transactions =
          (System.run actions).database.transactions ∧
        ((System.run actions).step (.finish i existing)).database.balances = (System.run actions).database.balances := by
  have hsound := sound_run actions
  refine ⟨fun c hc rows hrows => ?_,fun i p existing hp hstale => ?_⟩
  · rw [replay_perm hrows]
    exact hsound.accounted.replayed c.key c (Keyed.find_of_mem hsound.accounted.unique hc)
  · obtain ⟨b,hb,hmoved⟩ := hstale
    have hsame : ((System.run actions).step (.finish i existing)).database = (System.run actions).database := by
      simp only [System.step,System.finish,hp,Poster.outcome]
      split
      · rename_i db hdb
        rcases persist_ok hsound.accounted.unique
          (fun b hb => (hsound.reads p (mem_of_getElem? hp) b hb).1) hdb with rfl | ⟨hunchanged,-⟩
        · rfl
        · obtain ⟨c,hc,hv⟩ := hunchanged b hb
          exact absurd hv (hmoved c hc)
      · rfl
    rw [hsame]
    exact ⟨rfl,rfl⟩

section Race

def transfer (reference : String) : Transaction where
  transactionID := "txn_" ++ reference
  parentTransaction := ""
  parentKind := .unset
  queuedParent := ""
  source := "a"
  destination := "b"
  reference := reference
  currency := "USD"
  amount := ofInt 0
  amountString := ""
  preciseAmount := some 100
  precision := ofInt 1
  rate := ofInt 1
  overdraftLimit := ofInt 0
  status := .queued
  queueAction := .unset
  allowOverdraft := true
  inflight := false
  skipQueue := true
  atomic := false
  scheduled := false

def race : List Action :=
  [.createBalance "a" "USD",.createBalance "b" "USD",.start (.single (transfer "first") rfl),
    .start (.single (transfer "second") rfl),.read 0 "a" none,.read 1 "a" none,.read 0 "b" none,.read 1 "b" none,
    .finish 0 fun _ => false]

def overtaken (s : System) (i : ℕ) : Bool :=
  (s.posters[i]?.map fun p => p.reads.any fun b =>
    ((s.database.findBalance b.balanceID).map Cell.version) ≠ some b.version) = some true

theorem race_second_loses : (System.run race).database.transactions.length = 1 ∧ overtaken (System.run race) 0 = true ∧
    ((System.run race).step (.finish 0 fun _ => false)).database.transactions.length = 1 := by
  have hrows : (System.run race).database.transactions.length = 1 := by decide +kernel
  have hovertaken : overtaken (System.run race) 0 = true := by decide +kernel
  refine ⟨hrows,hovertaken,?_⟩
  rw [overtaken,decide_eq_true_eq,Option.map_eq_some_iff] at hovertaken
  obtain ⟨p,hp,hany⟩ := hovertaken
  obtain ⟨b,hb,hversion⟩ := any_eq_true.mp hany
  rw [((no_lost_update race).2 0 p (fun _ => false) hp ⟨b,hb,fun c hc hv => ?_⟩).1]
  · exact hrows
  · rw [hc,Option.map_some,hv] at hversion
    simp at hversion

end Race

end LedgerForge.Posters
