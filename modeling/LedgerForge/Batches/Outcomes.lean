import LedgerForge.Library.Batching
import LedgerForge.Library.EventRuns

/-! # Processing the transactions of a parent in batches

One goroutine fetches pages and hands out jobs, workers process them and send one result for each, and a collector
sorts the results into transactions and errors. If no fetch fails and the context lives, everything that was fetched
has been processed and collected when a call returns.
-/

namespace LedgerForge.Batches

open Relation

/-- What a worker sends for a job. -/
structure BatchJobResult (ρ : Type) where
  txn : Option ρ
  error : Option String
deriving DecidableEq

def BatchJobResult.of {ρ : Type} : Except String ρ → BatchJobResult ρ
  | .error err => ⟨none,some err⟩
  | .ok txn => ⟨some txn,none⟩

def BatchJobResult.value {ρ : Type} (result : BatchJobResult ρ) : Option ρ := if result.error = none then result.txn else none

/-- The results that a worker can send for a transaction. -/
structure TransactionWorker (τ ρ : Type) where
  outcome : τ → BatchJobResult ρ → Prop
  responds : ∀ txn, ∃ result, outcome txn result

/-- CommitWorker and VoidWorker: the action is tried on transactions that are inflight. -/
def inflightWorker {τ ρ : Type} (isInflightTransaction : τ → Bool) (act : τ → Except String ρ → Prop) (hact : ∀ txn, ∃ a, act txn a) :
    TransactionWorker τ ρ where
  outcome txn result :=
    if isInflightTransaction txn then ∃ a, act txn a ∧ result = .of a
    else result = ⟨none,some "transaction is not in inflight status"⟩
  responds txn := by
    split
    · obtain ⟨a,ha⟩ := hact txn
      exact ⟨_,a,ha,rfl⟩
    · exact ⟨_,rfl⟩

/-- A call: what the fetch function answers to its first, second and later calls, and who works on the transactions. -/
structure BatchCall (τ ρ : Type) where
  pages : ℕ → Except String (List τ)
  worker : TransactionWorker τ ρ
  maxWorkers : ℕ
  maxQueueSize : ℕ
  cancellable : Bool

/-- Where the goroutine that fetches stands. -/
inductive Fetcher (τ : Type)
  | fetching (call : ℕ)
  | sending (txns : List τ) (call : ℕ)
  | failing (err : String)
  | closing
  | done

inductive Phase (τ ρ : Type)
  | waiting
  | working (txn : τ)
  | reporting (result : BatchJobResult ρ)
  | returned

/-- The error that a call returns: of the fetch, the only one of the workers, or all of theirs. -/
inductive BatchError
  | fetch (err : String)
  | single (err : String)
  | joined (errs : List String)
deriving DecidableEq

def BatchError.errors : BatchError → List String
  | .fetch err => [err]
  | .single err => [err]
  | .joined errs => errs

def combine : List String → Option BatchError
  | [] => none
  | [err] => some (.single err)
  | errs => some (.joined errs)

/-- A call that runs. The last three fields record which transactions have been fetched, which ones a worker is done with,
and whether a fetch has failed. -/
structure BatchState {τ ρ : Type} (c : BatchCall τ ρ) where
  fetcher : Fetcher τ
  workers : Fin c.maxWorkers → Phase τ ρ
  jobs : List τ
  jobsClosed : Bool
  results : List (BatchJobResult ρ)
  resultsClosed : Bool
  allTxns : List ρ
  allErrors : List String
  collected : Bool
  errChan : Option String
  returned : Option (List ρ × Option BatchError)
  cancelled : Bool
  fetched : List τ
  handled : List (τ × BatchJobResult ρ)
  fetchFailed : Bool

variable {τ ρ : Type} {c : BatchCall τ ρ} {s t : BatchState c}

def BatchState.processResult (s : BatchState c) (result : BatchJobResult ρ) : BatchState c :=
  match result.error,result.txn with
  | some err,_ => { s with allErrors := s.allErrors ++ [err] }
  | none,some txn => { s with allTxns := s.allTxns ++ [txn] }
  | none,none => s

def BatchState.setWorker (s : BatchState c) (i : Fin c.maxWorkers) (phase : Phase τ ρ) : BatchState c :=
  { s with workers := Function.update s.workers i phase }

def BatchState.fetch (s : BatchState c) (call : ℕ) : Except String (List τ) → BatchState c
  | .error err => { s with fetcher := .failing err, fetchFailed := true }
  | .ok [] => { s with fetcher := .closing }
  | .ok txns => { s with fetcher := .sending txns call, fetched := s.fetched ++ txns }

inductive BatchStep (c : BatchCall τ ρ) : BatchState c → BatchState c → Prop
  | fetch {s : BatchState c} (call : ℕ) (h : s.fetcher = .fetching call) (hlive : s.cancelled = false) :
      BatchStep c s (s.fetch call (c.pages call))
  | expire {s : BatchState c} (call : ℕ) (err : String) (h : s.fetcher = .fetching call) (hcancelled : s.cancelled = true) :
      BatchStep c s { s with fetcher := .failing err }
  | send {s : BatchState c} (txn : τ) (rest : List τ) (call : ℕ) (h : s.fetcher = .sending (txn :: rest) call)
      (hroom : s.jobs.length < c.maxQueueSize) :
      BatchStep c s { s with fetcher := .sending rest call, jobs := s.jobs ++ [txn] }
  /-- A job goes to a worker that waits for it. -/
  | hand {s : BatchState c} (i : Fin c.maxWorkers) (txn : τ) (rest : List τ) (call : ℕ) (h : s.fetcher = .sending (txn :: rest) call)
      (hjobs : s.jobs = []) (hi : s.workers i = .waiting) :
      BatchStep c s { s.setWorker i (.working txn) with fetcher := .sending rest call }
  | abandon {s : BatchState c} (txn : τ) (rest : List τ) (call : ℕ) (err : String) (h : s.fetcher = .sending (txn :: rest) call)
      (hcancelled : s.cancelled = true) : BatchStep c s { s with fetcher := .failing err }
  | next {s : BatchState c} (call : ℕ) (h : s.fetcher = .sending [] call) : BatchStep c s { s with fetcher := .fetching (call+1) }
  | fail {s : BatchState c} (err : String) (h : s.fetcher = .failing err) :
      BatchStep c s { s with fetcher := .closing, errChan := some err }
  | closeJobs {s : BatchState c} (h : s.fetcher = .closing) : BatchStep c s { s with fetcher := .done, jobsClosed := true }
  | take {s : BatchState c} (i : Fin c.maxWorkers) (txn : τ) (rest : List τ) (hi : s.workers i = .waiting)
      (hjobs : s.jobs = txn :: rest) : BatchStep c s { s.setWorker i (.working txn) with jobs := rest }
  | leave {s : BatchState c} (i : Fin c.maxWorkers) (hi : s.workers i = .waiting) (hjobs : s.jobs = []) (hclosed : s.jobsClosed = true) :
      BatchStep c s (s.setWorker i .returned)
  | work {s : BatchState c} (i : Fin c.maxWorkers) (txn : τ) (result : BatchJobResult ρ) (hi : s.workers i = .working txn)
      (houtcome : c.worker.outcome txn result) :
      BatchStep c s { s.setWorker i (.reporting result) with handled := s.handled ++ [(txn,result)] }
  | report {s : BatchState c} (i : Fin c.maxWorkers) (result : BatchJobResult ρ) (hi : s.workers i = .reporting result)
      (hroom : s.results.length < c.maxQueueSize) :
      BatchStep c s { s.setWorker i .waiting with results := s.results ++ [result] }
  /-- A result goes to the collector, which waits for it. -/
  | pass {s : BatchState c} (i : Fin c.maxWorkers) (result : BatchJobResult ρ) (hi : s.workers i = .reporting result)
      (hresults : s.results = []) (hcollects : s.collected = false) :
      BatchStep c s ((s.setWorker i .waiting).processResult result)
  | collect {s : BatchState c} (result : BatchJobResult ρ) (rest : List (BatchJobResult ρ)) (hresults : s.results = result :: rest)
      (hcollects : s.collected = false) : BatchStep c s ({ s with results := rest }.processResult result)
  | closeResults {s : BatchState c} (hreturned : ∀ i, s.workers i = .returned) : BatchStep c s { s with resultsClosed := true }
  | finish {s : BatchState c} (hresults : s.results = []) (hclosed : s.resultsClosed = true) :
      BatchStep c s { s with collected := true }
  /-- The call sees the error of the fetcher. -/
  | returnError {s : BatchState c} (err : String) (herr : s.errChan = some err) (hreturned : s.returned = none) :
      BatchStep c s { s with returned := some (s.allTxns,some (.fetch err)) }
  /-- The call sees that all results have been collected. -/
  | returnDone {s : BatchState c} (hcollected : s.collected = true) (hreturned : s.returned = none) :
      BatchStep c s { s with returned := some (s.allTxns,combine s.allErrors) }
  /-- The context ends. -/
  | cancel {s : BatchState c} (h : c.cancellable = true) : BatchStep c s { s with cancelled := true }

def BatchCall.initial (c : BatchCall τ ρ) : BatchState c where
  fetcher := .fetching 0
  workers _ := .waiting
  jobs := []
  jobsClosed := false
  results := []
  resultsClosed := false
  allTxns := []
  allErrors := []
  collected := false
  errChan := none
  returned := none
  cancelled := false
  fetched := []
  handled := []
  fetchFailed := false

def BatchCall.Reaches (c : BatchCall τ ρ) : BatchState c → Prop := ReflTransGen (BatchStep c) c.initial

/-- What holds when a call returns a list and an error. -/
structure Good (s : BatchState c) (txns : List ρ) (err : Option BatchError) : Prop where
  fetchFailed : s.fetchFailed = true → err ≠ none
  idle : ∀ i txn, s.workers i ≠ .working txn
  handled : (s.handled.map Prod.fst).Perm s.fetched
  txns : txns.Perm (s.handled.filterMap fun h => h.2.value)
  errors : ∀ txn result e, (txn,result) ∈ s.handled → result.error = some e → ∃ b, err = some b ∧ e ∈ b.errors

def BatchCall.Lossless (c : BatchCall τ ρ) : Prop :=
  ∀ s t, c.Reaches s → BatchStep c s t → s.returned = none → ∀ txns err, t.returned = some (txns,err) → Good s txns err

/-- The fetch function fails in a call that is made if the context lives. -/
def BatchCall.FetchFails (c : BatchCall τ ρ) : Prop :=
  ∃ k err, c.pages k = .error err ∧ ∀ j < k, ∃ txn rest, c.pages j = .ok (txn :: rest)

open List Function BatchJobResult BatchState Phase ReflTransGen Nat

/-- The transactions that the fetcher has not handed out yet. -/
def Fetcher.left : Fetcher τ → List τ
  | .sending txns _ => txns
  | _ => []

def Phase.job : Phase τ ρ → List τ
  | .working txn => [txn]
  | _ => []

def Phase.reports : Phase τ ρ → List (BatchJobResult ρ)
  | .reporting result => [result]
  | _ => []

def FetcherSound (c : BatchCall τ ρ) : Fetcher τ → Prop
  | .fetching call => ∀ j < call, ∃ txn rest, c.pages j = .ok (txn :: rest)
  | .sending _ call => ∀ j ≤ call, ∃ txn rest, c.pages j = .ok (txn :: rest)
  | .failing _ => False
  | _ => True

/-- Where everything is that has been fetched. -/
structure Counts (s : BatchState c) : Prop where
  fetched : ∀ p : τ → Bool, (s.handled.map Prod.fst).countP p+(∑ i, (s.workers i).job.countP p)+s.jobs.countP p+
    s.fetcher.left.countP p = s.fetched.countP p
  txns : ∀ p : ρ → Bool, s.allTxns.countP p+(∑ i, ((s.workers i).reports.filterMap value).countP p)+
    (s.results.filterMap value).countP p = (s.handled.filterMap fun h => h.2.value).countP p
  errors : ∀ p : String → Bool, s.allErrors.countP p+(∑ i, ((s.workers i).reports.filterMap error).countP p)+
    (s.results.filterMap error).countP p = (s.handled.filterMap fun h => h.2.error).countP p

structure Running (s : BatchState c) : Prop extends Counts s where
  live : s.cancelled = false
  sound : FetcherSound c s.fetcher
  noError : s.errChan = none
  fetchFailed : s.fetchFailed = false
  jobsClosed : s.jobsClosed = true ↔ s.fetcher = .done
  left : ∀ i, s.workers i = .returned → s.jobsClosed = true ∧ s.jobs = []
  resultsClosed : s.resultsClosed = true → ∀ i, s.workers i = .returned
  collected : s.collected = true → s.resultsClosed = true ∧ s.results = []

theorem Running.initial (c : BatchCall τ ρ) : Running c.initial where
  fetched p := by simp [BatchCall.initial,job,Fetcher.left]
  txns p := by simp [BatchCall.initial,reports]
  errors p := by simp [BatchCall.initial,reports]
  live := rfl
  sound := nofun
  noError := rfl
  fetchFailed := rfl
  jobsClosed := ⟨nofun,nofun⟩
  left := nofun
  resultsClosed := nofun
  collected := nofun

/-- A worker moves, and what it gives away turns up elsewhere. -/
theorem Counts.move (h : Counts s) {i : Fin c.maxWorkers} {phase : Phase τ ρ} (hworkers : t.workers = update s.workers i phase)
    (hfetched : ∀ p : τ → Bool,
      (t.handled.map Prod.fst).countP p+phase.job.countP p+t.jobs.countP p+t.fetcher.left.countP p+s.fetched.countP p =
        (s.handled.map Prod.fst).countP p+(s.workers i).job.countP p+s.jobs.countP p+s.fetcher.left.countP p+t.fetched.countP p)
    (htxns : ∀ p : ρ → Bool,
      t.allTxns.countP p+(phase.reports.filterMap value).countP p+(t.results.filterMap value).countP p+
          (s.handled.filterMap fun h => h.2.value).countP p =
        s.allTxns.countP p+((s.workers i).reports.filterMap value).countP p+
          (s.results.filterMap value).countP p+(t.handled.filterMap fun h => h.2.value).countP p)
    (herrors : ∀ p : String → Bool,
      t.allErrors.countP p+(phase.reports.filterMap error).countP p+(t.results.filterMap error).countP p+
          (s.handled.filterMap fun h => h.2.error).countP p =
        s.allErrors.countP p+((s.workers i).reports.filterMap error).countP p+
          (s.results.filterMap error).countP p+(t.handled.filterMap fun h => h.2.error).countP p) :
    Counts t := by
  have hsum : ∀ f : Phase τ ρ → ℕ, (∑ j, f (t.workers j))+f (s.workers i) = (∑ j, f (s.workers j))+f phase := by
    intro f
    rw [hworkers]
    exact Batching.sum_update₂ (fun p _ => f p) s.workers (fun _ => ()) i phase ()
  refine ⟨fun p => ?_,fun p => ?_,fun p => ?_⟩
  · have hold := h.fetched p
    have hnew := hfetched p
    have hworkers := hsum fun phase => phase.job.countP p
    omega
  · have hold := h.txns p
    have hnew := htxns p
    have hworkers := hsum fun phase => (phase.reports.filterMap value).countP p
    omega
  · have hold := h.errors p
    have hnew := herrors p
    have hworkers := hsum fun phase => (phase.reports.filterMap error).countP p
    omega

theorem processResult_lists (s : BatchState c) (result : BatchJobResult ρ) :
    (s.processResult result).allTxns = s.allTxns ++ [result].filterMap value ∧
    (s.processResult result).allErrors = s.allErrors ++ [result].filterMap error ∧
    s.processResult result = { s with
      allTxns := (s.processResult result).allTxns
      allErrors := (s.processResult result).allErrors } := by
  obtain ⟨txn,error⟩ := result
  cases error with
  | some err => simp [processResult,value]
  | none => cases txn <;> simp [processResult,value]

section

variable (h : Running s)
include h

theorem Running.jobsOpen (hf : s.fetcher ≠ .done) : s.jobsClosed ≠ true := fun hj => hf (h.jobsClosed.mp hj)

theorem Running.fetcher {f : Fetcher τ} {jobs fetched : List τ} (hdone : s.fetcher ≠ .done) (hf : f ≠ .done) (hsound : FetcherSound c f)
    (hcounts : ∀ p : τ → Bool, jobs.countP p+f.left.countP p+s.fetched.countP p = s.jobs.countP p+s.fetcher.left.countP p+fetched.countP p) :
    Running { s with fetcher := f, jobs := jobs, fetched := fetched } where
  fetched p := by
    have hp := h.fetched p
    have hnew := hcounts p
    dsimp only at hp ⊢
    omega
  txns := h.txns
  errors := h.errors
  live := h.live
  sound := hsound
  noError := h.noError
  fetchFailed := h.fetchFailed
  jobsClosed := ⟨fun hj => absurd hj (h.jobsOpen hdone),fun hd => absurd hd hf⟩
  left i hi := absurd (h.left i hi).1 (h.jobsOpen hdone)
  resultsClosed := h.resultsClosed
  collected := h.collected

theorem Running.worker (i : Fin c.maxWorkers) (phase : Phase τ ρ) {t : BatchState c} (hopen : s.workers i ≠ .returned)
    (hworkers : t.workers = update s.workers i phase) (hcounts : Counts t) (hfetcher : FetcherSound c t.fetcher)
    (hdone : t.fetcher = .done ↔ s.fetcher = .done)
    (hjobs : s.jobs = [] → t.jobs = []) (hphase : phase = .returned → s.jobsClosed = true ∧ s.jobs = [])
    (hsame : t.cancelled = s.cancelled ∧ t.errChan = s.errChan ∧ t.fetchFailed = s.fetchFailed ∧ t.jobsClosed = s.jobsClosed ∧
      t.resultsClosed = s.resultsClosed ∧ t.collected = s.collected) : Running t := by
  obtain ⟨hcancelled,herr,hfailed,hclosed,hresults,hcollected⟩ := hsame
  -- A worker that has not returned keeps the results open.
  have hresultsOpen : s.resultsClosed ≠ true := fun hr => hopen (h.resultsClosed hr i)
  refine ⟨hcounts,hcancelled.trans h.live,hfetcher,herr.trans h.noError,hfailed.trans h.fetchFailed,?_,fun j hj => ?_,fun hr => ?_,
    fun hc => ?_⟩
  · rw [hclosed,hdone]
    exact h.jobsClosed
  · rw [hworkers] at hj
    rw [hclosed]
    by_cases hji : j = i
    · subst hji
      rw [update_self] at hj
      exact (hphase hj).imp id hjobs
    · rw [update_of_ne hji] at hj
      exact (h.left j hj).imp id hjobs
  · exact absurd (hresults ▸ hr) hresultsOpen
  · exact absurd (h.collected (hcollected ▸ hc)).1 hresultsOpen

end

theorem Running.step (h : Running s) (hfails : ¬ c.FetchFails) (hcancellable : c.cancellable = false) (hstep : BatchStep c s t) :
    Running t := by
  cases hstep with
  | fetch call hf hlive =>
    have hsound := h.sound
    rw [hf] at hsound
    have hdone : s.fetcher ≠ .done := by rw [hf]; nofun
    cases hp : c.pages call with
    | error err => exact absurd ⟨call,err,hp,hsound⟩ hfails
    | ok txns =>
      cases txns with
      | nil =>
        refine h.fetcher hdone nofun trivial fun p => ?_
        rw [hf]
        rfl
      | cons txn rest =>
        refine h.fetcher hdone nofun (fun j hj => ?_) fun p => ?_
        · rcases lt_or_eq_of_le hj with hj | rfl
          · exact hsound j hj
          · exact ⟨txn,rest,hp⟩
        · rw [hf,countP_append]
          simp only [Fetcher.left,countP_nil]
          omega
  | expire call err hf hcancelled => cases h.live.symm.trans hcancelled
  | send txn rest call hf hroom =>
    have hsound := h.sound
    rw [hf] at hsound
    refine h.fetcher (by rw [hf]; nofun) nofun hsound fun p => ?_
    rw [hf,countP_append]
    simp only [Fetcher.left,countP_cons,countP_nil]
    omega
  | hand i txn rest call hf hjobs hi =>
    have hsound := h.sound
    rw [hf] at hsound
    refine h.worker i (.working txn) (by rw [hi]; nofun) rfl (h.move rfl ?_ (fun p => ?_) fun p => ?_) hsound
      ⟨nofun,by rw [hf]; nofun⟩ id nofun ⟨rfl,rfl,rfl,rfl,rfl,rfl⟩
    · simp only [setWorker,hf,hi,Fetcher.left,job,countP_cons,countP_nil]
      omega
    all_goals
      rw [hi]
      rfl
  | abandon txn rest call err hf hcancelled => cases h.live.symm.trans hcancelled
  | next call hf =>
    have hsound := h.sound
    rw [hf] at hsound
    refine h.fetcher (by rw [hf]; nofun) nofun (fun j hj => hsound j (le_of_lt_succ hj)) fun p => ?_
    rw [hf]
    rfl
  | fail err hf =>
    have hsound := h.sound
    rw [hf] at hsound
    exact hsound.elim
  | closeJobs hf =>
    have hfetched := h.fetched
    rw [hf] at hfetched
    exact ⟨⟨hfetched,h.txns,h.errors⟩,h.live,trivial,h.noError,h.fetchFailed,⟨fun _ => rfl,fun _ => rfl⟩,
      fun i hi => ⟨rfl,(h.left i hi).2⟩,h.resultsClosed,h.collected⟩
  | take i txn rest hi hjobs =>
    refine h.worker i (.working txn) (by rw [hi]; nofun) rfl (h.move rfl ?_ (fun p => ?_) fun p => ?_) h.sound
      Iff.rfl (fun hj => by cases hj.symm.trans hjobs) nofun ⟨rfl,rfl,rfl,rfl,rfl,rfl⟩
    · simp only [setWorker,hi,hjobs,job,countP_cons,countP_nil]
      omega
    all_goals
      rw [hi]
      rfl
  | leave i hi hjobs hclosed =>
    refine h.worker i .returned (by rw [hi]; nofun) rfl (h.move rfl (fun p => ?_) (fun p => ?_) fun p => ?_) h.sound
      Iff.rfl id (fun _ => ⟨hclosed,hjobs⟩) ⟨rfl,rfl,rfl,rfl,rfl,rfl⟩
    all_goals
      rw [hi]
      rfl
  | work i txn result hi houtcome =>
    refine h.worker i (.reporting result) (by rw [hi]; nofun) rfl (h.move rfl ?_ ?_ ?_) h.sound
      Iff.rfl id nofun ⟨rfl,rfl,rfl,rfl,rfl,rfl⟩
    · simp only [setWorker,hi,job,map_append,countP_append,map_cons,map_nil,countP_nil]
      omega
    · have hone : [(txn,result)].filterMap (fun h => h.2.value) = [result].filterMap value := by simp [List.filterMap]
      simp only [setWorker,hi,reports,filterMap_append,countP_append,hone,filterMap_nil,countP_nil]
      omega
    · have hone : [(txn,result)].filterMap (fun h => h.2.error) = [result].filterMap error := by simp [List.filterMap]
      simp only [setWorker,hi,reports,filterMap_append,countP_append,hone,filterMap_nil,countP_nil]
      omega
  | report i result hi hroom =>
    refine h.worker i .waiting (by rw [hi]; nofun) rfl (h.move rfl (fun p => ?_) ?_ ?_) h.sound
      Iff.rfl id nofun ⟨rfl,rfl,rfl,rfl,rfl,rfl⟩
    · rw [hi]
      rfl
    all_goals
      simp only [setWorker,hi,reports,filterMap_append,countP_append,filterMap_nil,countP_nil]
      omega
  | pass i result hi hresults hcollects =>
    obtain ⟨htxns,herrors,hsame⟩ := processResult_lists (s.setWorker i .waiting) result
    rw [hsame,htxns,herrors]
    refine h.worker i .waiting (by rw [hi]; nofun) rfl (h.move rfl (fun p => ?_) ?_ ?_) h.sound
      Iff.rfl id nofun ⟨rfl,rfl,rfl,rfl,rfl,rfl⟩
    · rw [hi]
      rfl
    all_goals
      simp only [setWorker,hi,reports,countP_append,filterMap_nil,countP_nil]
      omega
  | collect result rest hresults hcollects =>
    obtain ⟨htxns,herrors,hsame⟩ := processResult_lists { s with results := rest } result
    rw [hsame,htxns,herrors]
    have hsplit : s.results = [result] ++ rest := hresults
    refine ⟨⟨h.fetched,fun p => ?_,fun p => ?_⟩,h.live,h.sound,h.noError,h.fetchFailed,h.jobsClosed,h.left,h.resultsClosed,
      fun hc => absurd hc (by rw [hcollects]; nofun)⟩
    · have hp := h.txns p
      rw [hsplit,filterMap_append] at hp
      simp only [countP_append] at hp ⊢
      omega
    · have hp := h.errors p
      rw [hsplit,filterMap_append] at hp
      simp only [countP_append] at hp ⊢
      omega
  | closeResults hreturned =>
    exact ⟨⟨h.fetched,h.txns,h.errors⟩,h.live,h.sound,h.noError,h.fetchFailed,h.jobsClosed,h.left,fun _ => hreturned,
      fun hc => ⟨rfl,(h.collected hc).2⟩⟩
  | finish hresults hclosed =>
    exact ⟨⟨h.fetched,h.txns,h.errors⟩,h.live,h.sound,h.noError,h.fetchFailed,h.jobsClosed,h.left,h.resultsClosed,fun _ => ⟨hclosed,hresults⟩⟩
  | returnError err herr hreturned => cases h.noError.symm.trans herr
  | returnDone hcollected hreturned =>
    exact ⟨⟨h.fetched,h.txns,h.errors⟩,h.live,h.sound,h.noError,h.fetchFailed,h.jobsClosed,h.left,h.resultsClosed,h.collected⟩
  | cancel hc => cases hcancellable.symm.trans hc

theorem exists_mem_combine {errs : List String} {e : String} (h : e ∈ errs) : ∃ b, combine errs = some b ∧ e ∈ b.errors := by
  match errs with
  | [] => cases h
  | [_] => exact ⟨_,rfl,h⟩
  | _ :: _ :: _ => exact ⟨_,rfl,h⟩

theorem perm_of_countP {α : Type} {l l' : List α} (h : ∀ p : α → Bool, l.countP p = l'.countP p) : l.Perm l' := by
  classical
  exact perm_iff_count.mpr fun a => h (· == a)

theorem Running.good (h : Running s) (hworkers : 0 < c.maxWorkers) (hcollected : s.collected = true) :
    Good s s.allTxns (combine s.allErrors) := by
  obtain ⟨hclosed,hresults⟩ := h.collected hcollected
  have hreturned := h.resultsClosed hclosed
  obtain ⟨hjobsClosed,hjobs⟩ := h.left ⟨0,hworkers⟩ (hreturned _)
  have hdone := h.jobsClosed.mp hjobsClosed
  refine ⟨fun hf => ?_,fun i txn hi => ?_,perm_of_countP fun p => ?_,perm_of_countP fun p => ?_,fun txn result e hmem he => ?_⟩
  · cases h.fetchFailed.symm.trans hf
  · cases (hreturned i).symm.trans hi
  · have hp := h.fetched p
    simpa [hreturned,hjobs,hdone,job,Fetcher.left] using hp
  · have hp := h.txns p
    simpa [hreturned,hresults,reports] using hp
  · have hperm : s.allErrors.Perm (s.handled.filterMap fun h => h.2.error) := perm_of_countP fun p => by
      have hp := h.errors p
      simpa [hreturned,hresults,reports] using hp
    exact exists_mem_combine (hperm.mem_iff.mpr (mem_filterMap.mpr ⟨_,hmem,he⟩))

/-- Nothing has been fetched. -/
structure Still (s : BatchState c) : Prop where
  fetched : s.fetched = []
  handled : s.handled = []
  jobs : s.jobs = []
  results : s.results = []
  allTxns : s.allTxns = []
  allErrors : s.allErrors = []
  fetchFailed : s.fetchFailed = false
  fetcher : (∀ call, s.fetcher = .fetching call → call = 0) ∧ ∀ txns call, s.fetcher ≠ .sending txns call
  workers : ∀ i, s.workers i = .waiting ∨ s.workers i = .returned

theorem Still.step (h : Still s) (hempty : c.pages 0 = .ok []) (hstep : BatchStep c s t) : Still t := by
  have hworking : ∀ {i phase}, s.workers i = phase → phase ≠ .waiting → phase ≠ .returned → False := by
    rintro i _ rfl hw hr
    exact (h.workers i).elim hw hr
  obtain ⟨h₁,h₂,h₃,h₄,h₅,h₆,h₇,hfetcher,hworkers⟩ := h
  cases hstep with
  | fetch call hf hlive =>
    cases hfetcher.1 call hf
    rw [hempty]
    exact ⟨h₁,h₂,h₃,h₄,h₅,h₆,h₇,⟨nofun,nofun⟩,hworkers⟩
  | expire => exact ⟨h₁,h₂,h₃,h₄,h₅,h₆,h₇,⟨nofun,nofun⟩,hworkers⟩
  | send txn rest call hf => exact absurd hf (hfetcher.2 _ _)
  | hand i txn rest call hf => exact absurd hf (hfetcher.2 _ _)
  | abandon txn rest call err hf => exact absurd hf (hfetcher.2 _ _)
  | next call hf => exact absurd hf (hfetcher.2 _ _)
  | fail => exact ⟨h₁,h₂,h₃,h₄,h₅,h₆,h₇,⟨nofun,nofun⟩,hworkers⟩
  | closeJobs => exact ⟨h₁,h₂,h₃,h₄,h₅,h₆,h₇,⟨nofun,nofun⟩,hworkers⟩
  | take i txn rest hi hjobs => cases h₃.symm.trans hjobs
  | leave i hi =>
    refine ⟨h₁,h₂,h₃,h₄,h₅,h₆,h₇,hfetcher,fun j => ?_⟩
    simp only [setWorker,update_apply]
    split
    · exact .inr rfl
    · exact hworkers j
  | work i txn result hi => exact (hworking hi nofun nofun).elim
  | report i result hi => exact (hworking hi nofun nofun).elim
  | pass i result hi => exact (hworking hi nofun nofun).elim
  | collect result rest hresults => cases h₄.symm.trans hresults
  | closeResults => exact ⟨h₁,h₂,h₃,h₄,h₅,h₆,h₇,hfetcher,hworkers⟩
  | finish => exact ⟨h₁,h₂,h₃,h₄,h₅,h₆,h₇,hfetcher,hworkers⟩
  | returnError => exact ⟨h₁,h₂,h₃,h₄,h₅,h₆,h₇,hfetcher,hworkers⟩
  | returnDone => exact ⟨h₁,h₂,h₃,h₄,h₅,h₆,h₇,hfetcher,hworkers⟩
  | cancel => exact ⟨h₁,h₂,h₃,h₄,h₅,h₆,h₇,hfetcher,hworkers⟩

theorem Still.reaches (hempty : c.pages 0 = .ok []) (h : c.Reaches s) : Still s := by
  refine Transitions.invariant (fun _ _ hstill hstep => hstill.step hempty hstep) h ?_
  exact ⟨rfl,rfl,rfl,rfl,rfl,rfl,rfl,⟨fun call hf => by cases hf; rfl,nofun⟩,fun _ => .inl rfl⟩

theorem Still.good (h : Still s) (err : Option BatchError) : Good s s.allTxns err where
  fetchFailed hf := by cases h.fetchFailed.symm.trans hf
  idle i txn hi := by
    rcases h.workers i with hw | hw <;> cases hi.symm.trans hw
  handled := by rw [h.handled,h.fetched]; exact .nil
  txns := by rw [h.handled,h.allTxns]; exact .nil
  errors txn result e hmem := by
    rw [h.handled] at hmem
    cases hmem

theorem BatchStep.returns (hstep : BatchStep c s t) (hopen : s.returned = none) {txns : List ρ} {err : Option BatchError}
    (hreturned : t.returned = some (txns,err)) :
    txns = s.allTxns ∧ ((∃ e, s.errChan = some e ∧ err = some (.fetch e)) ∨ s.collected = true ∧ err = combine s.allErrors) := by
  cases hstep with
  | returnError e herr =>
    cases hreturned
    exact ⟨rfl,.inl ⟨e,herr,rfl⟩⟩
  | returnDone hcollected =>
    cases hreturned
    exact ⟨rfl,.inr ⟨hcollected,rfl⟩⟩
  | fetch call =>
    have hsame : (s.fetch call (c.pages call)).returned = s.returned := by
      unfold BatchState.fetch
      split <;> rfl
    cases hopen.symm.trans (hsame.symm.trans hreturned)
  | pass i result =>
    rw [(processResult_lists (s.setWorker i .waiting) result).2.2] at hreturned
    cases hopen.symm.trans hreturned
  | collect result rest =>
    rw [(processResult_lists { s with results := rest } result).2.2] at hreturned
    cases hopen.symm.trans hreturned
  | _ => cases hopen.symm.trans hreturned

theorem lossless_of_condition (h : c.pages 0 = .ok [] ∨ 0 < c.maxWorkers ∧ c.cancellable = false ∧ ¬ c.FetchFails) : c.Lossless := by
  intro s t hreaches hstep hopen txns err hreturned
  obtain ⟨rfl,hreturn⟩ := hstep.returns hopen hreturned
  rcases h with hempty | ⟨hworkers,hcancellable,hfails⟩
  · exact (Still.reaches hempty hreaches).good err
  have hrunning : Running s :=
    Transitions.invariant (fun _ _ hrunning hstep => hrunning.step hfails hcancellable hstep) hreaches (.initial c)
  rcases hreturn with ⟨e,herr,-⟩ | ⟨hcollected,rfl⟩
  · cases hrunning.noError.symm.trans herr
  · exact hrunning.good hworkers hcollected

theorem exists_all_left (h : c.Reaches s) (hworkers : s.workers = fun _ => .waiting) (hjobs : s.jobs = []) (hclosed : s.jobsClosed = true) :
    c.Reaches { s with workers := fun _ => .returned } := by
  have hsome : ∀ k, k ≤ c.maxWorkers → c.Reaches { s with workers := fun i => if i.val < k then .returned else .waiting } := by
    intro k hk
    induction k with
    | zero =>
      have hsame : { s with workers := fun i : Fin c.maxWorkers => if i.val < 0 then returned else .waiting } = s := by
        obtain ⟨⟩ := s
        cases hworkers
        simp
      rwa [hsame]
    | succ k ih =>
      have hlast := (ih (by omega)).tail (.leave ⟨k,hk⟩ (by simp) hjobs hclosed)
      have hupdate : update (fun i : Fin c.maxWorkers => if i.val < k then Phase.returned else (.waiting : Phase τ ρ)) ⟨k,hk⟩ .returned =
          fun i => if i.val < k+1 then .returned else .waiting := by
        funext i
        rw [update_apply]
        simp only [Fin.ext_iff]
        split_ifs <;> first | rfl | omega
      simp only [setWorker,hupdate] at hlast
      exact hlast
  have hall := hsome c.maxWorkers le_rfl
  simpa only [Fin.is_lt,if_true] using hall

theorem not_lossless_of_first {err : String} (hp : c.pages 0 = .error err) : ¬ c.Lossless := by
  intro hlossless
  have hfetch : BatchStep c c.initial (c.initial.fetch 0 (c.pages 0)) := .fetch 0 rfl rfl
  rw [hp] at hfetch
  have hclosed := ((single hfetch).tail (.fail err rfl)).tail (.closeJobs rfl)
  have hleft := exists_all_left hclosed rfl rfl rfl
  have hdone := (hleft.tail (.closeResults fun _ => rfl)).tail (.finish rfl rfl)
  have hgood := hlossless _ _ hdone (.returnDone rfl rfl) rfl _ _ rfl
  exact hgood.fetchFailed rfl rfl

theorem not_good_unhandled {txns : List ρ} {err : Option BatchError} (hhandled : s.handled = []) (hfetched : s.fetched ≠ []) :
    ¬ Good s txns err := by
  intro hgood
  have hperm := hgood.handled
  rw [hhandled] at hperm
  exact hfetched hperm.nil_eq.symm

theorem not_lossless_of_no_workers {txn : τ} {rest : List τ} (hp : c.pages 0 = .ok (txn :: rest)) (hworkers : c.maxWorkers = 0) :
    ¬ c.Lossless := by
  intro hlossless
  have hnobody : ∀ i : Fin c.maxWorkers, False := fun i => not_lt_zero i.val (hworkers ▸ i.isLt)
  have hfetch : BatchStep c c.initial (c.initial.fetch 0 (c.pages 0)) := .fetch 0 rfl rfl
  rw [hp] at hfetch
  have hdone := ((single hfetch).tail (.closeResults fun i => (hnobody i).elim)).tail (.finish rfl rfl)
  exact not_good_unhandled rfl (cons_ne_nil txn rest) (hlossless _ _ hdone (.returnDone rfl rfl) rfl _ _ rfl)

theorem not_lossless_of_cancellable {txn : τ} {rest : List τ} (hp : c.pages 0 = .ok (txn :: rest)) (hcancellable : c.cancellable = true) :
    ¬ c.Lossless := by
  intro hlossless
  have hfetch : BatchStep c c.initial (c.initial.fetch 0 (c.pages 0)) := .fetch 0 rfl rfl
  rw [hp] at hfetch
  have hfailed := (((single hfetch).tail (.cancel hcancellable)).tail
    (.abandon txn rest 0 "context canceled" rfl rfl)).tail (.fail "context canceled" rfl)
  exact not_good_unhandled rfl (cons_ne_nil txn rest) (hlossless _ _ hfailed (.returnError "context canceled" rfl rfl) rfl _ _ rfl)

/-- Only the fetcher and the first worker have something to do. -/
structure Calm (s : BatchState c) (fetcher : Fetcher τ) (i : Fin c.maxWorkers) (phase : Phase τ ρ) : Prop where
  reaches : c.Reaches s
  fetcher : s.fetcher = fetcher
  worker : s.workers i = phase
  jobs : s.jobs = []
  results : s.results = []
  collected : s.collected = false
  returned : s.returned = none
  live : s.cancelled = false

variable {i : Fin c.maxWorkers} {txn : τ} {rest : List τ} {call : ℕ} {fetcher : Fetcher τ}

theorem Calm.hand (h : Calm s (.sending (txn :: rest) call) i .waiting) : ∃ t, Calm t (.sending rest call) i (.working txn) :=
  ⟨_,h.reaches.tail (.hand i txn rest call h.fetcher h.jobs h.worker),rfl,update_self ..,h.jobs,h.results,h.collected,
    h.returned,h.live⟩

theorem Calm.work (h : Calm s fetcher i (.working txn)) : ∃ t, Calm t fetcher i .waiting := by
  obtain ⟨result,houtcome⟩ := c.worker.responds txn
  have hworked := h.reaches.tail (.work i txn result h.worker houtcome)
  have hpassed := hworked.tail (.pass i result (update_self ..) h.results h.collected)
  rw [(processResult_lists _ result).2.2] at hpassed
  exact ⟨_,hpassed,h.fetcher,update_self ..,h.jobs,h.results,h.collected,h.returned,h.live⟩

theorem Calm.handAll {txns : List τ} (h : Calm s (.sending txns call) i .waiting) (hne : txns ≠ []) :
    ∃ t txn, Calm t (.sending [] call) i (.working txn) := by
  induction txns generalizing s with
  | nil => exact absurd rfl hne
  | cons txn rest ih =>
    obtain ⟨t,ht⟩ := h.hand
    cases rest with
    | nil => exact ⟨t,txn,ht⟩
    | cons next rest =>
      obtain ⟨u,hu⟩ := ht.work
      exact ih hu nofun

theorem Calm.page (h : Calm s (.fetching call) i .waiting) (hp : c.pages call = .ok (txn :: rest)) :
    ∃ t txn, Calm t (.fetching (call+1)) i (.working txn) := by
  have hfetched := h.reaches.tail (.fetch call h.fetcher h.live)
  rw [hp] at hfetched
  have hsending : Calm (s.fetch call (.ok (txn :: rest))) (.sending (txn :: rest) call) i .waiting :=
    ⟨hfetched,rfl,h.worker,h.jobs,h.results,h.collected,h.returned,h.live⟩
  obtain ⟨t,last,ht⟩ := hsending.handAll nofun
  exact ⟨_,last,ht.reaches.tail (.next call ht.fetcher),rfl,ht.worker,ht.jobs,ht.results,ht.collected,ht.returned,ht.live⟩

theorem exists_busy (i : Fin c.maxWorkers) (k : ℕ) (hpages : ∀ j ≤ k, ∃ txn rest, c.pages j = .ok (txn :: rest)) :
    ∃ s txn, Calm s (.fetching (k+1)) i (.working txn) := by
  induction k with
  | zero =>
    obtain ⟨txn,rest,hp⟩ := hpages 0 le_rfl
    have hinitial : Calm c.initial (.fetching 0) i .waiting := ⟨.refl,rfl,rfl,rfl,rfl,rfl,rfl,rfl⟩
    exact hinitial.page hp
  | succ k ih =>
    obtain ⟨s,txn,hs⟩ := ih fun j hj => hpages j (hj.trans (le_succ k))
    obtain ⟨t,ht⟩ := hs.work
    obtain ⟨txn,rest,hp⟩ := hpages (k+1) le_rfl
    exact ht.page hp

theorem not_lossless_of_later {k : ℕ} {err : String} (i : Fin c.maxWorkers) (hp : c.pages (k+1) = .error err)
    (hpages : ∀ j ≤ k, ∃ txn rest, c.pages j = .ok (txn :: rest)) : ¬ c.Lossless := by
  intro hlossless
  obtain ⟨s,txn,hs⟩ := exists_busy i k hpages
  have hfetched := hs.reaches.tail (.fetch (k+1) hs.fetcher hs.live)
  rw [hp] at hfetched
  have hfailed := hfetched.tail (.fail err rfl)
  have hgood := hlossless _ _ hfailed (.returnError err rfl hs.returned) hs.returned _ _ rfl
  exact hgood.idle i txn hs.worker

/-- A call loses nothing exactly when there is nothing to process, or when there are workers, the context lives and no fetch
fails. -/
theorem batch_fan_out_lossless (c : BatchCall τ ρ) :
    c.Lossless ↔ c.pages 0 = .ok [] ∨ 0 < c.maxWorkers ∧ c.cancellable = false ∧ ¬ c.FetchFails := by
  constructor
  · intro hlossless
    by_cases hempty : c.pages 0 = .ok []
    · exact .inl hempty
    cases hp : c.pages 0 with
    | error err => exact absurd hlossless (not_lossless_of_first hp)
    | ok txns =>
      have hne : txns ≠ [] := fun h => hempty (by rw [hp,h])
      obtain ⟨txn,rest,rfl⟩ := exists_cons_of_ne_nil hne
      have hworkers : 0 < c.maxWorkers := pos_of_ne_zero fun h => not_lossless_of_no_workers hp h hlossless
      refine .inr ⟨hworkers,?_,?_⟩
      · by_contra hcancellable
        exact not_lossless_of_cancellable hp (by simpa using hcancellable) hlossless
      · rintro ⟨k,err,hk,hpages⟩
        cases k with
        | zero => cases hp.symm.trans hk
        | succ k => exact not_lossless_of_later ⟨0,hworkers⟩ hk (fun j hj => hpages j (lt_succ_of_le hj)) hlossless
  · exact lossless_of_condition

/-- One inflight leg and then a fetch that fails, handled by one worker that commits. -/
def secondPageFails : BatchCall String String where
  pages
    | 0 => .ok ["leg"]
    | _ => .error "connection lost"
  worker := inflightWorker (fun _ => true) (fun _ a => a = .ok "committed") fun _ => ⟨_,rfl⟩
  maxWorkers := 1
  maxQueueSize := 1000
  cancellable := false

/-- No leg at all, because the first fetch fails. -/
def firstPageFails : BatchCall String String := { secondPageFails with pages := fun _ => .error "connection lost" }

/-- The call returns while its worker is busy. If the first fetch fails, it can return no error. -/
theorem failed_fetch_is_lost :
    (∃ s t, secondPageFails.Reaches s ∧ BatchStep _ s t ∧ s.returned = none ∧ t.returned = some ([],some (.fetch "connection lost")) ∧
      ∃ i, s.workers i = .working "leg") ∧
    ∃ s t, firstPageFails.Reaches s ∧ BatchStep _ s t ∧ s.returned = none ∧ s.fetchFailed = true ∧ t.returned = some ([],none) := by
  constructor
  · have hfetch : BatchStep secondPageFails secondPageFails.initial (secondPageFails.initial.fetch 0 (.ok ["leg"])) := .fetch 0 rfl rfl
    have hhanded := (single hfetch).tail (.hand (0 : Fin 1) "leg" [] 0 rfl rfl rfl)
    have hfailed := ((hhanded.tail (.next 0 rfl)).tail (.fetch 1 rfl rfl)).tail (.fail "connection lost" rfl)
    exact ⟨_,_,hfailed,.returnError "connection lost" rfl rfl,rfl,rfl,(0 : Fin 1),rfl⟩
  · have hfetch : BatchStep firstPageFails firstPageFails.initial (firstPageFails.initial.fetch 0 (.error "connection lost")) :=
      .fetch 0 rfl rfl
    have hclosed := ((single hfetch).tail (.fail "connection lost" rfl)).tail (.closeJobs rfl)
    have hdone := ((exists_all_left hclosed rfl rfl rfl).tail (.closeResults fun _ => rfl)).tail (.finish rfl rfl)
    exact ⟨_,_,hdone,.returnDone rfl rfl,rfl,rfl,rfl⟩

end LedgerForge.Batches
