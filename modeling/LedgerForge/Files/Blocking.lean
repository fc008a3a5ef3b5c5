import LedgerForge.Files.Errors

/-! # Imports that go on and imports that block

An import with few errors always goes on, and nobody sends on the closed channel. As long as the context lives and every
batch fails, the errors that are reported and those that are still owed become no fewer, so an import that owes more
than the channel has room for cannot return.
-/

namespace LedgerForge.Files

open Relation CsvImport

variable {m : CsvImport} {s t : ImportState m}

/-- The import has not returned, and no goroutine can move. -/
def Stuck (s : ImportState m) : Prop := s.result = none ∧ ∀ t, ¬ ImportStep m s t

def SendsClosed (s : ImportState m) : Prop := s.shared.errsClosed = true ∧ Reports s

def CsvImport.NeverStuck (m : CsvImport) : Prop := ∀ s, m.Reaches s → ¬ Stuck s ∧ ¬ SendsClosed s

/-- A row that cannot be read comes after enough records for every worker to have received one. -/
def CsvImport.LateUnreadable (m : CsvImport) : Prop :=
  ∃ pre err post, m.rows = pre ++ .error err :: post ∧ m.workerCount ≤ (records pre).length

section

variable {i : Fin m.workerCount} {effect : Effect} {w w' : Worker} {r r' : Reader} {shared : Shared}

theorem exists_worker_step (hw : s.workers i = w) (h : WorkerStep m s.cancelled w effect w')
    (htakes : Takes m.workerCount s.shared effect shared) : ∃ t, ImportStep m s t :=
  ⟨_,.worker i effect w' shared (hw ▸ h) htakes⟩

theorem exists_reader_step (hr : s.reader = r) (h : ReaderStep s.cancelled r effect r')
    (htakes : Takes m.workerCount s.shared effect shared) : ∃ t, ImportStep m s t :=
  ⟨_,.reader effect r' shared (hr ▸ h) htakes⟩

end

/-- A worker goes on unless it has returned or waits for a channel. -/
theorem exists_step_of_worker (hopen : s.shared.errsClosed = false) (hroom : Reports s → s.shared.errs.length < m.workerCount)
    (i : Fin m.workerCount) (hwaits : ∀ batch processCount, s.workers i = .waiting batch processCount →
      s.shared.queue ≠ [] ∨ s.shared.rowsClosed = true) (hreturned : s.workers i ≠ .returned) : ∃ t, ImportStep m s t := by
  cases hw : s.workers i with
  | waiting batch processCount =>
    cases hqueue : s.shared.queue with
    | cons record queue => exact exists_worker_step hw (.receive record batch processCount) (.receive record queue hqueue)
    | nil =>
      have hclosed := (hwaits batch processCount hw).resolve_left fun h => h hqueue
      by_cases hbatch : batch = []
      · subst hbatch
        exact exists_worker_step hw (.finish processCount) (.drained hqueue hclosed)
      · exact exists_worker_step hw (.flush batch processCount hbatch) (.drained hqueue hclosed)
  | checking record batch processCount =>
    cases hcancelled : s.cancelled with
    | true => exact exists_worker_step hw (.cancel record batch processCount hcancelled) .skip
    | false =>
      cases hparse : m.parse record with
      | error err => exact exists_worker_step hw (.unparsable record batch processCount err hcancelled hparse) .skip
      | ok txn =>
        by_cases hfull : defaultBatchSize ≤ batch.length+1
        · exact exists_worker_step hw (.full record batch processCount txn hcancelled hparse hfull) .skip
        · exact exists_worker_step hw (.append record batch processCount txn hcancelled hparse (not_le.mp hfull)) .skip
  | storing rest batch processCount last =>
    cases rest with
    | nil => exact exists_worker_step hw (.count batch processCount last) (.count _)
    | cons txn rest => exact exists_worker_step hw (.store txn rest batch processCount last) (.store txn)
  | reporting err next =>
    exact exists_worker_step hw (.report err next) (.report err (hroom (.inr ⟨i,err,next,hw⟩)) hopen)
  | advancing batch processCount =>
    by_cases hleave : s.cancelled = true ∧ (processCount+1)%contextCheckInterval = 0
    · exact exists_worker_step hw (.leave batch processCount hleave.1 hleave.2) .skip
    · exact exists_worker_step hw (.advance batch processCount (not_and.mp hleave)) .skip
  | returned => exact absurd hw hreturned

theorem exists_step_of_reader (hopen : s.shared.errsClosed = false) (hroom : Reports s → s.shared.errs.length < m.workerCount)
    (hqueue : s.shared.queue = []) (hreader : s.reader ≠ .done) : ∃ t, ImportStep m s t := by
  cases hr : s.reader with
  | reading rest rowNum =>
    cases rest with
    | nil => exact exists_reader_step hr (.eof rowNum) .closeRows
    | cons row rest =>
      cases row with
      | error err => exact exists_reader_step hr (.unreadable err rest rowNum) .skip
      | ok record => exact exists_reader_step hr (.read record rest rowNum) .skip
  | sending record rest rowNum =>
    exact exists_reader_step hr (.send record rest rowNum) (.send record (by rw [hqueue]; decide))
  | reporting err rest rowNum =>
    have hreports : Reports s := .inl (by rw [hr]; exact one_pos)
    exact exists_reader_step hr (.report err rest rowNum) (.report err (hroom hreports) hopen)
  | done => exact absurd hr hreader

theorem not_stuck (h : Tracked s) (hroom : Reports s → s.shared.errs.length < m.workerCount) : ¬ Stuck s := by
  rintro ⟨hresult,hstuck⟩
  suffices hstep : ∃ t, ImportStep m s t from hstep.elim hstuck
  cases hopen : s.shared.errsClosed with
  | true => exact ⟨_,.collect hopen hresult⟩
  | false =>
    by_cases hall : ∀ i, s.workers i = .returned
    · exact ⟨_,.close hall hopen⟩
    push Not at hall
    obtain ⟨i,hi⟩ := hall
    by_cases hqueue : s.shared.queue = [] ∧ s.shared.rowsClosed = false
    · have hreader : s.reader ≠ .done := fun hdone => by
        rw [h.rowsClosed.mpr hdone] at hqueue
        cases hqueue.2
      exact exists_step_of_reader hopen hroom hqueue.1 hreader
    · refine exists_step_of_worker hopen hroom i (fun _ _ _ => ?_) hi
      rwa [not_and_or,Bool.not_eq_false] at hqueue

theorem late_of_sendsClosed (h : Tracked s) (hsends : SendsClosed s) (hcancellable : s.cancelled = true → m.cancellable = true) :
    m.cancellable = true ∧ m.LateUnreadable := by
  obtain ⟨hclosed,hreports⟩ := hsends
  have hreturned := h.errsClosed hclosed
  have hreader : 0 < s.reader.pending := by
    rcases hreports with hreader | ⟨i,err,next,hi⟩
    · exact hreader
    · rw [hreturned i] at hi
      cases hi
  have hrows : s.shared.rowsClosed ≠ true := fun hrows => by
    rw [h.rowsClosed.mp hrows] at hreader
    exact absurd hreader (lt_irrefl 0)
  have hleft : ∀ i, s.cancelled = true ∧ s.taken i ≠ [] := fun i =>
    (h.leaving i (by rw [hreturned i]; rfl)).resolve_left fun h => hrows h.1
  obtain ⟨pre,hfollows⟩ := h.follows
  obtain ⟨earlier,err,rfl⟩ := hfollows.last hreader
  obtain ⟨post,hpost⟩ := hfollows.read
  refine ⟨hcancellable (hleft ⟨0,m.workers_pos⟩).1,earlier,err,post,by rw [← hpost]; simp,?_⟩
  have htaken := hfollows.taken fun _ => true
  simp only [List.countP_true,records_append] at htaken
  calc m.workerCount = ∑ _i : Fin m.workerCount, 1 := by simp
    _ ≤ ∑ i, (s.taken i).length := Finset.sum_le_sum fun i _ => List.length_pos_iff.mpr (hleft i).2
    _ ≤ (records earlier ++ records [.error err]).length := by omega
    _ = (records earlier).length := by simp [records,Except.toOption]

theorem cancellable_of_reaches (h : m.Reaches s) (hcancelled : s.cancelled = true) : m.cancellable = true := by
  have hmove : ∀ s t : ImportState m, (s.cancelled = true → m.cancellable = true) → ImportMove m s t →
      t.cancelled = true → m.cancellable = true := by
    intro s t hs hmove
    cases hmove with
    | cancel hcancellable => exact fun _ => hcancellable
    | step hstep => cases hstep <;> exact hs
  exact Transitions.invariant hmove h nofun hcancelled

theorem neverStuck_of_bound (hbound : m.errorBound ≤ m.workerCount) (hlate : m.cancellable = true → ¬ m.LateUnreadable) :
    m.NeverStuck := by
  intro s hreaches
  have h := Tracked.reaches hreaches
  refine ⟨not_stuck h fun hreports => (h.errs_lt hreports).trans_le hbound,fun hsends => ?_⟩
  obtain ⟨hcancellable,hl⟩ := late_of_sendsClosed h hsends (cancellable_of_reaches hreaches)
  exact hlate hcancellable hl

open Reader Effect

def Worker.weight : Worker → ℕ
  | .waiting batch _ => batch.length+4
  | .checking _ batch _ => batch.length+9
  | .storing rest _ _ last => rest.length+if last then 3 else 7
  | .reporting _ next => next.weight+1
  | .advancing batch _ => batch.length+5
  | .returned => 0

def Reader.weight : Reader → ℕ
  | .reading rest _ => 9*rest.length+1
  | .sending _ rest _ => 9*rest.length+8
  | .reporting _ rest _ => 9*rest.length+2
  | .done => 0

def ImportState.weight (s : ImportState m) : ℕ :=
  s.reader.weight+(∑ i, (s.workers i).weight)+6*s.shared.queue.length+(if s.shared.errsClosed then 0 else 1)+
    if s.result = none then 1 else 0

theorem WorkerStep.weight {cancelled : Bool} {w w' : Worker} {effect : Effect} (h : WorkerStep m cancelled w effect w') :
    w'.weight < w.weight+6*effect.received.length := by
  cases h with
  | fail err txn rest batch processCount last => cases last <;> simp [Worker.afterBatch,Worker.weight,received]
  | count batch processCount last => cases last <;> simp [Worker.afterBatch,Worker.weight,received]
  | store txn rest batch processCount last => cases last <;> simp [Worker.weight,received]
  | _ => simp [Worker.weight,received]; try omega

theorem ImportStep.weight (h : ImportStep m s t) : t.weight < s.weight := by
  cases h with
  | reader effect reader shared hstep htakes =>
    have hweight : reader.weight+6*shared.queue.length < s.reader.weight+6*s.shared.queue.length := by
      generalize s.reader = old at hstep
      cases hstep <;> cases htakes <;> simp [weight] <;> omega
    simp only [ImportState.weight,htakes.errsClosed]
    omega
  | worker i effect w shared hstep htakes =>
    have hsum := Batching.sum_update₂ (fun w _ => Worker.weight w) s.workers s.taken i w []
    have hweight := hstep.weight
    have hqueue := congrArg List.length (hstep.queue htakes).1
    rw [List.length_append] at hqueue
    simp only [ImportState.weight,htakes.errsClosed] at hsum ⊢
    omega
  | close hreturned hopen => simp [ImportState.weight,hopen]
  | collect hclosed hresult => simp [ImportState.weight,hresult]

def CsvImport.rowsOwed (m : CsvImport) (rows : List (Except String (List String))) : ℕ := unreadable rows+m.unparsable (records rows)

def CsvImport.owed (m : CsvImport) : Worker → ℕ
  | .waiting batch _ => m.failures (min batch.length 1)
  | .checking record batch _ => m.unparsable [record]+m.failures (min (batch.length+m.valid [record]) 1)
  | .storing rest _ _ _ => m.failures (min rest.length 1)
  | .reporting _ next => m.owed next+1
  | .advancing batch _ => m.failures (min batch.length 1)
  | .returned => 0

def ImportState.errors (s : ImportState m) : ℕ :=
  s.shared.errs.length+s.reader.pending+m.unparsable s.reader.held+m.rowsOwed s.reader.rest+m.unparsable s.shared.queue+
    ∑ i, m.owed (s.workers i)

theorem rowsOwed_cons (row : Except String (List String)) (rest : List (Except String (List String))) :
    m.rowsOwed (row :: rest) = m.rowsOwed [row]+m.rowsOwed rest := by
  have hrecords : records (row :: rest) = records [row] ++ records rest := records_append [row] rest
  have hunreadable : unreadable (row :: rest) = unreadable [row]+unreadable rest := unreadable_append [row] rest
  simp only [rowsOwed,hrecords,hunreadable,unparsable_append]
  omega

theorem rowsOwed_ok (record : List String) : m.rowsOwed [.ok record] = m.unparsable [record] := by
  simp [rowsOwed,unreadable,records,Except.toOption]

theorem rowsOwed_error (err : String) : m.rowsOwed [.error err] = 1 := by
  simp [rowsOwed,unreadable,records,Except.toOption,unparsable]

@[simp] theorem unparsable_nil : m.unparsable [] = 0 := rfl

theorem failures_zero : m.failures 0 = 0 := by simp [failures]

theorem WorkerStep.owed {w w' : Worker} {effect : Effect} (h : WorkerStep m false w effect w')
    (hsteady : m.storeFails = true → ∀ txn, effect ≠ .store txn) :
    m.owed w+m.unparsable effect.received ≤ m.owed w'+effect.reported := by
  cases h with
  | receive record batch processCount =>
    have := failures_mono (m := m) (min_le_min_right 1 (Nat.le_add_right batch.length (m.valid [record])))
    simp only [CsvImport.owed,received,reported]
    omega
  | finish => simp [CsvImport.owed,received,failures_zero]
  | flush => simp [CsvImport.owed,received]
  | cancel _ _ _ h => cases h
  | unparsable record batch processCount err _ hparse =>
    obtain ⟨hvalid,hone⟩ := counts_of_error hparse
    simp only [CsvImport.owed,hvalid,hone,add_zero,received,reported]
    rw [unparsable_nil]
    omega
  | append record batch processCount txn _ hparse =>
    obtain ⟨hvalid,hone⟩ := counts_of_ok hparse
    simp [CsvImport.owed,hvalid,hone,received]
  | full record batch processCount txn _ hparse =>
    obtain ⟨hvalid,hone⟩ := counts_of_ok hparse
    simp [CsvImport.owed,hvalid,hone,received]
  | store txn rest batch processCount last =>
    have hfalse : m.storeFails = false := by
      by_contra h
      exact hsteady (by simpa using h) txn rfl
    simp [CsvImport.owed,received,failures,hfalse]
  | fail err txn rest batch processCount last hfails =>
    simp only [CsvImport.owed,received,failures,hfails,if_true,unparsable_nil,List.length_cons]
    omega
  | count => simp [CsvImport.owed,received,failures_zero]
  | report err next => exact le_rfl
  | advance => exact le_rfl
  | leave _ _ h => cases h

/-- If a goroutine can move, one of them can move such that the errors become no fewer. -/
theorem ImportStep.exists_steady (h : ImportStep m s t) (hcancelled : s.cancelled = false) :
    ∃ u, ImportStep m s u ∧ u.cancelled = false ∧ s.errors ≤ u.errors := by
  cases h with
  | reader effect reader shared hstep htakes =>
    refine ⟨_,.reader effect reader shared hstep htakes,hcancelled,?_⟩
    have hold : s.shared.errs.length+s.reader.pending+m.unparsable s.reader.held+m.rowsOwed s.reader.rest+m.unparsable s.shared.queue ≤
        shared.errs.length+reader.pending+m.unparsable reader.held+m.rowsOwed reader.rest+m.unparsable shared.queue := by
      rw [hcancelled] at hstep
      generalize s.reader = old at hstep
      cases hstep with
      | read record rest rowNum =>
        cases htakes
        simp only [Reader.pending,Reader.held,Reader.rest,rowsOwed_cons (.ok record) rest,rowsOwed_ok,unparsable_nil]
        omega
      | unreadable err rest rowNum =>
        cases htakes
        simp only [Reader.pending,Reader.held,Reader.rest,rowsOwed_cons (.error err) rest,rowsOwed_error,unparsable_nil]
        omega
      | eof rowNum =>
        cases htakes
        exact le_rfl
      | send record rest rowNum =>
        cases htakes
        simp only [Reader.pending,Reader.held,Reader.rest,unparsable_append,unparsable_nil]
        omega
      | cancel record rest rowNum h => cases h
      | report err rest rowNum =>
        cases htakes
        simp only [Reader.pending,Reader.held,Reader.rest,List.length_append,List.length_singleton]
        omega
    exact Nat.add_le_add_right hold _
  | worker i effect w shared hstep htakes =>
    -- A batch that could be stored fails instead.
    obtain ⟨effect,w,shared,hstep,htakes,hsteady⟩ : ∃ effect w shared, WorkerStep m s.cancelled (s.workers i) effect w ∧
        Takes m.workerCount s.shared effect shared ∧ (m.storeFails = true → ∀ txn, effect ≠ .store txn) := by
      by_cases hsteady : m.storeFails = true → ∀ txn, effect ≠ .store txn
      · exact ⟨effect,w,shared,hstep,htakes,hsteady⟩
      push Not at hsteady
      obtain ⟨hfails,txn,rfl⟩ := hsteady
      generalize hw : s.workers i = old at hstep
      cases hstep with
      | store _ rest batch processCount last =>
        exact ⟨.skip,_,s.shared,.fail "" txn rest batch processCount last hfails,.skip,by simp⟩
    refine ⟨_,.worker i effect w shared hstep htakes,hcancelled,?_⟩
    rw [hcancelled] at hstep
    have hsum := Batching.sum_update₂ (fun w _ => m.owed w) s.workers s.taken i w []
    have howed := hstep.owed hsteady
    have herrs := htakes.errs
    have hqueue := congrArg m.unparsable (hstep.queue htakes).1
    rw [unparsable_append] at hqueue
    simp only [ImportState.errors] at hsum ⊢
    omega
  | close hreturned hopen => exact ⟨_,.close hreturned hopen,hcancelled,le_rfl⟩
  | collect hclosed hresult => exact ⟨_,.collect hclosed hresult,hcancelled,le_rfl⟩

theorem result_eq_none (h : Tracked s) (hcancelled : s.cancelled = false) (hmany : m.workerCount < s.errors) : s.result = none := by
  by_contra hresult
  have hreturned := h.errsClosed (h.result hresult)
  have hdone : s.shared.rowsClosed = true ∧ s.shared.queue = [] := by
    have hleaving := h.leaving ⟨0,m.workers_pos⟩ (by rw [hreturned]; rfl)
    refine hleaving.resolve_right fun h => ?_
    rw [hcancelled] at h
    cases h.1
  have hroom := h.room
  simp only [ImportState.errors,hdone.2,h.rowsClosed.mp hdone.1,hreturned,pending,held,rest,CsvImport.owed,
    Finset.sum_const_zero,unparsable_nil] at hmany
  have hnone : m.rowsOwed [] = 0 := rfl
  omega

theorem exists_stuck (hreaches : m.Reaches s) (hcancelled : s.cancelled = false) (hmany : m.workerCount < s.errors) :
    ∃ t, m.Reaches t ∧ Stuck t := by
  induction hn : s.weight using Nat.strong_induction_on generalizing s with
  | _ n ih =>
    by_cases hstep : ∃ t, ImportStep m s t
    · obtain ⟨t,hstep⟩ := hstep
      obtain ⟨u,hstep,hlive,herrors⟩ := hstep.exists_steady hcancelled
      exact ih u.weight (hn ▸ hstep.weight) (hreaches.tail (.step hstep)) hlive (hmany.trans_le herrors) rfl
    · exact ⟨s,hreaches,result_eq_none (.reaches hreaches) hcancelled hmany,fun t ht => hstep ⟨t,ht⟩⟩

end LedgerForge.Files
