import LedgerForge.Files.Schedules

/-! # What a successful import has stored

As long as the context lives, everything that is read is stored, in a batch, in the queue, or has been reported.
-/

namespace LedgerForge.Files

open Relation List Function CsvImport Worker Reader Except
open CsvImport
open Reconciliation (ExternalTransaction)

variable {m : CsvImport} {s t : ImportState m}

def CsvImport.answers (m : CsvImport) (rows : List (Except String (List String))) : List (Except String ExternalTransaction) :=
  rows.map fun row => row.bind m.parse

/-- An import that returns no errors has stored every record once, and has counted them. -/
def CsvImport.Accounted (m : CsvImport) : Prop :=
  ∀ s, m.Reaches s → ∀ total, s.result = some (total,[]) →
    (s.shared.stored.map ok).Perm (m.answers m.rows) ∧ total = m.rows.length

def CsvImport.unstored (m : CsvImport) : Worker → List (Except String ExternalTransaction)
  | .waiting batch _ => batch.map .ok
  | .checking record batch _ => batch.map .ok ++ [m.parse record]
  | .storing rest _ _ _ => rest.map .ok
  | .reporting _ _ => []
  | .advancing batch _ => batch.map .ok
  | .returned => []

/-- What a worker has stored and not counted. -/
def Worker.uncounted : Worker → ℕ
  | .storing rest batch _ _ => batch.length-rest.length
  | _ => 0

def Failed (s : ImportState m) : Prop := s.shared.errs ≠ [] ∨ Reports s

structure Conserved (s : ImportState m) : Prop where
  answers : ∀ p : Except String ExternalTransaction → Bool,
    (s.shared.stored.map ok).countP p+(∑ i, (m.unstored (s.workers i)).countP p)+(s.shared.queue.map m.parse).countP p+
      (s.reader.held.map m.parse).countP p+(m.answers s.reader.rest).countP p = (m.answers m.rows).countP p
  counted : s.shared.total+∑ i, (s.workers i).uncounted = s.shared.stored.length
  batches : ∀ i rest batch processCount last, s.workers i = .storing rest batch processCount last → rest.length ≤ batch.length

theorem Conserved.initial (m : CsvImport) : Conserved m.initial where
  answers p := by simp [CsvImport.initial,CsvImport.unstored,held,rest]
  counted := by simp [CsvImport.initial,uncounted]
  batches _ _ _ _ _ h := by cases h

variable {w : Worker} {effect : Effect} {c shared : Shared}

/-- A step of a worker that reports nothing keeps what it has in hand. -/
theorem WorkerStep.unstored {w' : Worker} {c' : Shared} (h : WorkerStep m false w effect w')
    (htakes : Takes m.workerCount c effect c') (hquiet : ∀ err next, w' ≠ .reporting err next) (hopen : ∀ err next, w ≠ .reporting err next)
    (hbatch : ∀ rest batch processCount last, w = .storing rest batch processCount last → rest.length ≤ batch.length)
    (p : Except String ExternalTransaction → Bool) :
    (c'.stored.map ok).countP p+(m.unstored w').countP p+(c'.queue.map m.parse).countP p =
        (c.stored.map ok).countP p+(m.unstored w).countP p+(c.queue.map m.parse).countP p ∧
      c'.total+w'.uncounted+c.stored.length = c.total+w.uncounted+c'.stored.length ∧
      ∀ rest batch processCount last, w' = .storing rest batch processCount last → rest.length ≤ batch.length := by
  cases h with
  | receive record batch processCount =>
    cases htakes with
    | receive _ queue hqueue =>
      refine ⟨?_,rfl,by simp⟩
      simp only [unstored,countP_append,hqueue,map_cons,countP_cons,countP_nil]
      omega
  | finish => cases htakes; exact ⟨rfl,rfl,by simp⟩
  | flush batch processCount hne =>
    cases htakes
    refine ⟨rfl,by simp [uncounted],?_⟩
    rintro _ _ _ _ ⟨⟩
    exact le_rfl
  | cancel _ _ _ h => cases h
  | unparsable record batch processCount err => exact absurd rfl (hquiet _ _)
  | append record batch processCount txn _ hparse =>
    cases htakes
    exact ⟨by simp [unstored,hparse],rfl,by simp⟩
  | full record batch processCount txn _ hparse =>
    cases htakes
    refine ⟨by simp [unstored,hparse],by simp [uncounted],?_⟩
    rintro _ _ _ _ ⟨⟩
    exact le_rfl
  | store txn rest batch processCount last =>
    cases htakes
    have hle := hbatch _ _ _ _ rfl
    simp only [length_cons] at hle
    refine ⟨?_,?_,?_⟩
    · simp only [unstored,map_append,countP_append,map_cons,map_nil,countP_cons,countP_nil]
      omega
    · simp only [uncounted,length_append,length_cons,length_nil]
      omega
    · rintro _ _ _ _ ⟨⟩
      omega
  | fail err => exact absurd rfl (hquiet _ _)
  | count batch processCount last =>
    cases htakes
    cases last with
    | true => exact ⟨rfl,by simp [afterBatch,uncounted],by simp [afterBatch]⟩
    | false => exact ⟨rfl,by simp [afterBatch,uncounted],by simp [afterBatch]⟩
  | report err next => exact absurd rfl (hopen _ _)
  | advance => cases htakes; exact ⟨rfl,rfl,by simp⟩
  | leave _ _ h => cases h

theorem Takes.errs_ne_nil {capacity : ℕ} {c' : Shared} (h : Takes capacity c effect c') (hne : c.errs ≠ []) :
    c'.errs ≠ [] := by
  cases h <;> simp_all

theorem Failed.step (h : Failed s) (hstep : ImportStep m s t) : Failed t := by
  cases hstep with
  | reader effect reader shared hstep htakes =>
    rcases h with hne | hreader | hworker
    · exact .inl (htakes.errs_ne_nil hne)
    · generalize s.reader = old at hreader hstep
      cases hstep with
      | report =>
        cases htakes
        exact .inl (by simp)
      | _ => cases hreader
    · exact .inr (.inr hworker)
  | worker i effect w shared hstep htakes =>
    rcases h with hne | hreader | ⟨j,err,next,hj⟩
    · exact .inl (htakes.errs_ne_nil hne)
    · exact .inr (.inl hreader)
    · by_cases hji : j = i
      · subst hji
        rw [hj] at hstep
        cases hstep
        cases htakes
        exact .inl (by simp)
      · exact .inr (.inr ⟨j,err,next,(update_of_ne hji ..).trans hj⟩)
  | close => exact h
  | collect => exact h

theorem Conserved.worker {i : Fin m.workerCount} (h : Conserved s)
    (hcancelled : s.cancelled = false) (hquiet : ¬ Failed s) (hstep : WorkerStep m s.cancelled (s.workers i) effect w)
    (htakes : Takes m.workerCount s.shared effect shared) (hreport : ∀ err next, w ≠ .reporting err next) :
    Conserved { s with
      workers := update s.workers i w
      taken := update s.taken i (s.taken i ++ effect.received)
      shared := shared } := by
  rw [hcancelled] at hstep
  have hone := hstep.unstored htakes hreport (fun err next hw => hquiet (.inr (.inr ⟨i,err,next,hw⟩))) (h.batches i)
  refine ⟨fun p => ?_,?_,fun j rest batch processCount last hj => ?_⟩
  · have hsum := Batching.sum_update₂ (fun w _ => (m.unstored w).countP p) s.workers s.taken i w []
    have hp := h.answers p
    have hstored := (hone p).1
    dsimp only at hsum ⊢
    omega
  · have hsum := Batching.sum_update₂ (fun w _ => uncounted w) s.workers s.taken i w []
    have hcounted := h.counted
    have hstored := (hone fun _ => true).2.1
    dsimp only at hsum ⊢
    omega
  · dsimp only at hj
    by_cases hji : j = i
    · subst hji
      rw [update_self] at hj
      exact (hone fun _ => true).2.2 rest batch processCount last hj
    · rw [update_of_ne hji] at hj
      exact h.batches j rest batch processCount last hj

theorem Conserved.reader {reader : Reader} (h : Conserved s) (hcancelled : s.cancelled = false)
    (hquiet : ¬ Failed s) (hstep : ReaderStep s.cancelled s.reader effect reader) (htakes : Takes m.workerCount s.shared effect shared)
    (hreport : reader.pending = 0) : Conserved { s with reader := reader, shared := shared } := by
  rw [hcancelled] at hstep
  have hanswers := h.answers
  generalize hold : s.reader = old at hstep hanswers
  cases hstep with
  | read record rest rowNum =>
    cases htakes
    refine ⟨fun p => ?_,h.counted,h.batches⟩
    have hp := hanswers p
    have hok : (ok record).bind m.parse = m.parse record := rfl
    simp only [Reader.held,Reader.rest,CsvImport.answers,map_cons,countP_cons,map_nil,countP_nil,hok] at hp ⊢
    omega
  | unreadable err rest rowNum => cases hreport
  | eof rowNum =>
    cases htakes
    exact ⟨hanswers,h.counted,h.batches⟩
  | send record rest rowNum =>
    cases htakes
    refine ⟨fun p => ?_,h.counted,h.batches⟩
    have hp := hanswers p
    simp only [Reader.held,Reader.rest,map_append,countP_append,map_nil,countP_nil] at hp ⊢
    omega
  | cancel record rest rowNum h => cases h
  | report err rest rowNum => exact absurd (.inr (.inl (by rw [hold]; exact one_pos))) hquiet

theorem Conserved.reaches (hcancellable : m.cancellable = false) (h : m.Reaches s) :
    s.cancelled = false ∧ (Failed s ∨ Conserved s) := by
  induction h with
  | refl => exact ⟨rfl,.inr (.initial m)⟩
  | @tail s t _ hmove ih =>
    obtain ⟨hcancelled,hinv⟩ := ih
    cases hmove with
    | cancel h => cases hcancellable.symm.trans h
    | step hstep =>
      have hlive : t.cancelled = false := by cases hstep <;> exact hcancelled
      refine ⟨hlive,?_⟩
      by_cases hfailed : Failed t
      · exact .inl hfailed
      have hquiet : ¬ Failed s := fun hs => hfailed (hs.step hstep)
      have hconserved := hinv.resolve_left hquiet
      refine .inr ?_
      cases hstep with
      | reader effect reader shared hstep htakes =>
        refine hconserved.reader hcancelled hquiet hstep htakes (Nat.eq_zero_of_not_pos fun hpos => ?_)
        exact hfailed (.inr (.inl hpos))
      | worker i effect w shared hstep htakes =>
        refine hconserved.worker hcancelled hquiet hstep htakes fun err next hw => ?_
        exact hfailed (.inr (.inr ⟨i,err,next,(update_self ..).trans hw⟩))
      | close => exact ⟨hconserved.answers,hconserved.counted,hconserved.batches⟩
      | collect => exact ⟨hconserved.answers,hconserved.counted,hconserved.batches⟩

theorem result_eq (h : m.Reaches s) {total : ℕ} {errs : List String} (hresult : s.result = some (total,errs)) :
    total = s.shared.total ∧ errs = s.shared.errs := by
  induction h generalizing total errs with
  | refl => cases hresult
  | @tail s t hreaches hmove ih =>
    have htracked := Tracked.reaches hreaches
    cases hmove with
    | cancel => exact ih hresult
    | step hstep =>
      cases hstep with
      | reader effect reader shared hstep htakes =>
        have hclosed := htracked.result (by rw [show s.result = _ from hresult]; nofun)
        have hold := ih hresult
        generalize s.reader = old at hstep
        cases htakes with
        | report _ _ hopen => cases hclosed.symm.trans hopen
        | store => cases hstep
        | count => cases hstep
        | _ => exact hold
      | worker i effect w shared hstep htakes =>
        have hclosed := htracked.result (by rw [show s.result = _ from hresult]; nofun)
        rw [htracked.errsClosed hclosed i] at hstep
        cases hstep
      | close => exact ih hresult
      | collect =>
        cases hresult
        exact ⟨rfl,rfl⟩

theorem accounted_of_live (hcancellable : m.cancellable = false) : m.Accounted := by
  intro s hreaches total hresult
  obtain ⟨rfl,herrs⟩ := result_eq hreaches hresult
  have htracked := Tracked.reaches hreaches
  obtain ⟨hcancelled,hinv⟩ := Conserved.reaches hcancellable hreaches
  have hreturned := htracked.errsClosed (htracked.result (by rw [hresult]; nofun))
  have hdrained : s.shared.rowsClosed = true ∧ s.shared.queue = [] :=
    (htracked.leaving ⟨0,m.workers_pos⟩ (by rw [hreturned]; rfl)).resolve_right fun h => by
      rw [hcancelled] at h
      cases h.1
  have hdone := htracked.rowsClosed.mp hdrained.1
  have hquiet : ¬ Failed s := by
    rintro (hne | hreader | ⟨i,err,next,hi⟩)
    · exact hne herrs.symm
    · rw [hdone] at hreader
      cases hreader
    · rw [hreturned i] at hi
      cases hi
  have hconserved := hinv.resolve_left hquiet
  have hperm : (s.shared.stored.map ok).Perm (m.answers m.rows) := by
    refine perm_iff_count.mpr fun a => ?_
    have hp := hconserved.answers (· == a)
    simp only [hdone,hdrained.2,hreturned,held,rest,unstored,answers,map_nil,countP_nil,
      Finset.sum_const_zero,add_zero] at hp
    exact hp
  refine ⟨hperm,?_⟩
  have hcounted := hconserved.counted
  have hlength := hperm.length_eq
  simp only [hreturned,uncounted,Finset.sum_const_zero,add_zero] at hcounted
  simpa [hcounted,answers] using hlength

def CsvImport.Begins (m : CsvImport) : Prop := ∃ record rest, m.rows = .ok record :: rest

/-- Nothing has been handed over yet. -/
structure Idle (s : ImportState m) : Prop where
  stored : s.shared.stored = []
  total : s.shared.total = 0
  queue : s.shared.queue = []
  workers : ∀ i, s.workers i = .waiting [] 0 ∨ s.workers i = .returned ∧ s.shared.rowsClosed = true
  reader : s.reader = .reading m.rows 1 ∨ 0 < s.reader.pending ∨ s.reader = .done ∧ m.rows = []

theorem Idle.worker {i : Fin m.workerCount} (h : Idle s)
    (hstep : WorkerStep m s.cancelled (s.workers i) effect w) (htakes : Takes m.workerCount s.shared effect shared) :
    Idle { s with
      workers := update s.workers i w
      taken := update s.taken i (s.taken i ++ effect.received)
      shared := shared } := by
  rcases h.workers i with hi | hi
  · rw [hi] at hstep
    cases hstep with
    | receive =>
      cases htakes with
      | receive _ _ hqueue => cases h.queue.symm.trans hqueue
    | finish =>
      cases htakes with
      | drained _ hclosed =>
      refine ⟨h.stored,h.total,h.queue,fun j => ?_,h.reader⟩
      dsimp only
      by_cases hj : j = i
      · subst hj
        exact .inr ⟨update_self ..,hclosed⟩
      · rw [update_of_ne hj]
        exact h.workers j
    | flush _ _ hne => exact absurd rfl hne
  · rw [hi.1] at hstep
    cases hstep

/-- Unless the first row is a record, nothing is handed over before an error is reported. -/
theorem idle_of_reaches (hbegins : ¬ m.Begins) (h : m.Reaches s) : s.shared.errs ≠ [] ∨ Idle s := by
  induction h with
  | refl => exact .inr ⟨rfl,rfl,rfl,fun _ => .inl rfl,.inl rfl⟩
  | @tail s t _ hmove ih =>
    rcases ih with hne | hidle
    · refine .inl ?_
      cases hmove with
      | cancel => exact hne
      | step hstep =>
        cases hstep with
        | reader effect reader shared hstep htakes => exact htakes.errs_ne_nil hne
        | worker i effect w shared hstep htakes => exact htakes.errs_ne_nil hne
        | close => exact hne
        | collect => exact hne
    · cases hmove with
      | cancel => exact .inr ⟨hidle.stored,hidle.total,hidle.queue,hidle.workers,hidle.reader⟩
      | step hstep =>
        cases hstep with
        | reader effect reader shared hstep htakes =>
          rcases hidle.reader with hreader | hreader | hreader
          · rw [hreader] at hstep
            generalize hrows : m.rows = rows at hstep
            cases hstep with
            | read record rest => exact absurd ⟨record,rest,hrows⟩ hbegins
            | unreadable =>
              cases htakes
              exact .inr ⟨hidle.stored,hidle.total,hidle.queue,hidle.workers,.inr (.inl one_pos)⟩
            | eof =>
              cases htakes
              exact .inr ⟨hidle.stored,hidle.total,hidle.queue,fun i => (hidle.workers i).imp id fun h => ⟨h.1,rfl⟩,
                .inr (.inr ⟨rfl,hrows⟩)⟩
          · generalize s.reader = old at hreader hstep
            cases hstep with
            | report =>
              cases htakes
              exact .inl (by simp)
            | _ => cases hreader
          · rw [hreader.1] at hstep
            cases hstep
        | worker i effect w shared hstep htakes => exact .inr (hidle.worker hstep htakes)
        | close => exact .inr ⟨hidle.stored,hidle.total,hidle.queue,hidle.workers,hidle.reader⟩
        | collect => exact .inr ⟨hidle.stored,hidle.total,hidle.queue,hidle.workers,hidle.reader⟩

theorem accounted_of_not_begins (hbegins : ¬ m.Begins) : m.Accounted := by
  intro s hreaches total hresult
  obtain ⟨rfl,herrs⟩ := result_eq hreaches hresult
  have hidle := (idle_of_reaches hbegins hreaches).resolve_left fun hne => hne herrs.symm
  have htracked := Tracked.reaches hreaches
  have hreturned := htracked.errsClosed (htracked.result (by rw [hresult]; nofun))
  have hclosed : s.shared.rowsClosed = true := by
    rcases hidle.workers ⟨0,m.workers_pos⟩ with hwaits | hleft
    · cases (hreturned _).symm.trans hwaits
    · exact hleft.2
  have hrows : m.rows = [] := by
    have hreader := hidle.reader
    rw [htracked.rowsClosed.mp hclosed] at hreader
    rcases hreader with hreader | hreader | hreader
    · cases hreader
    · cases hreader
    · exact hreader.2
  rw [hidle.stored,hidle.total,hrows]
  exact ⟨.nil,rfl⟩

theorem CanReach.finish {r : Reader} {cancelled : Bool} (h : CanReach m r (fun _ => .waiting [] 0) c cancelled)
    (hqueue : c.queue = []) (hclosed : c.rowsClosed = true) : CanReach m r (fun _ => .returned) c cancelled := by
  have hsome : ∀ k, k ≤ m.workerCount → CanReach m r (fun i => if i.val < k then .returned else .waiting [] 0) c cancelled := by
    intro k hk
    induction k with
    | zero => exact h
    | succ k ih =>
      have hw := ih (by omega)
      rw [← update_eq_self ⟨k,hk⟩ (fun i : Fin m.workerCount => if i.val < k then returned else .waiting [] 0)] at hw
      simp only [lt_irrefl,if_false] at hw
      have hnext := hw.worker (.finish 0) (.drained hqueue hclosed)
      have hupdate : update (fun i : Fin m.workerCount => if i.val < k then returned else .waiting [] 0) ⟨k,hk⟩ .returned =
          fun i => if i.val < k+1 then .returned else .waiting [] 0 := by
        funext i
        rw [update_apply]
        simp only [Fin.ext_iff]
        split_ifs <;> first | rfl | omega
      rwa [hupdate] at hnext
  have hall := hsome m.workerCount le_rfl
  simpa only [Fin.is_lt,if_true] using hall

theorem exists_unread (hcancellable : m.cancellable = true) {record : List String} {rest : List (Except String (List String))}
    (hrows : m.rows = .ok record :: rest) : ∃ s, m.Reaches s ∧ s.result = some (0,[]) ∧ s.shared.stored = [] := by
  have hinitial : CanReach m (.reading (.ok record :: rest) 1) (fun _ => .waiting [] 0) ⟨[],false,[],false,0,[]⟩ false :=
    ⟨m.initial,.refl,by rw [← hrows]; rfl,rfl,rfl,rfl,rfl⟩
  have hread := (hinitial.cancel hcancellable).reader (.read record rest 1) .skip
  have hleft := hread.reader (.cancel record rest 2 rfl) .closeRows
  obtain ⟨s,hs,-,hw,hshared,-,hresult⟩ := hleft.finish rfl rfl
  have hclose := ImportStep.close (fun i => by rw [hw]) (by rw [hshared])
  refine ⟨_,(hs.tail (.step hclose)).tail (.step (.collect rfl hresult)),?_,?_⟩
  all_goals simp [hshared]

theorem accounted_iff : m.Accounted ↔ (m.cancellable = true → ¬ m.Begins) := by
  constructor
  · rintro h hcancellable ⟨record,rest,hrows⟩
    obtain ⟨s,hs,hresult,-⟩ := exists_unread hcancellable hrows
    have htotal := (h s hs 0 hresult).2
    rw [hrows] at htotal
    cases htotal
  · intro h
    cases hcancellable : m.cancellable with
    | false => exact accounted_of_live hcancellable
    | true => exact accounted_of_not_begins (h hcancellable)

end LedgerForge.Files
