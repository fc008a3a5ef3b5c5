import LedgerForge.Files.Csv
import LedgerForge.Library.Batching

/-! # How many errors an import reports

A row that cannot be read is reported once, a record that cannot be parsed is reported once, and so is every batch that
cannot be stored. How many batches there are depends on how the workers share the records.
-/

namespace LedgerForge.Files

open Relation List Function Effect Reader Finset

def Effect.reported : Effect → ℕ
  | .report _ => 1
  | _ => 0

namespace CsvImport

variable (m : CsvImport)

def records (rows : List (Except String (List String))) : List (List String) := rows.filterMap Except.toOption

def unreadable (rows : List (Except String (List String))) : ℕ := rows.countP fun row => row.toOption.isNone

def valid (records : List (List String)) : ℕ := records.countP fun record => (m.parse record).toOption.isSome

def unparsable (records : List (List String)) : ℕ := records.countP fun record => (m.parse record).toOption.isNone

/-- The errors of batches that cannot be stored. -/
def failures (batches : ℕ) : ℕ := if m.storeFails then batches else 0

def batches (valid : ℕ) : ℕ := (valid+(defaultBatchSize-1))/defaultBatchSize

/-- The most batches that the workers can make of valid records: each of them gets one, and one of them the others. -/
def mostBatches (valid workerCount : ℕ) : ℕ := min valid workerCount+(valid-workerCount)/defaultBatchSize

def errorBound : ℕ :=
  unreadable m.rows+m.unparsable (records m.rows)+m.failures (mostBatches (m.valid (records m.rows)) m.workerCount)

def sent (taken : List (List String)) : Worker → ℕ
  | .waiting _ processCount => m.unparsable taken+m.failures (processCount/defaultBatchSize)
  | .checking _ _ processCount => m.unparsable taken.dropLast+m.failures (processCount/defaultBatchSize)
  | .storing _ _ processCount _ => m.unparsable taken+m.failures (processCount/defaultBatchSize)
  | .reporting _ next => sent taken next-1
  | .advancing _ processCount => m.unparsable taken+m.failures ((processCount+1)/defaultBatchSize)
  | .returned => m.unparsable taken+m.failures (batches (m.valid taken))

def most (taken : List (List String)) : ℕ := m.unparsable taken+m.failures (batches (m.valid taken))

/-- A worker has processed the valid records that it has taken, and its batch is what is left of them. -/
def Sound (taken : List (List String)) : Worker → Prop
  | .waiting batch processCount => m.valid taken = processCount ∧ batch.length = processCount%defaultBatchSize
  | .checking record batch processCount =>
    ∃ earlier, taken = earlier ++ [record] ∧ m.valid earlier = processCount ∧ batch.length = processCount%defaultBatchSize
  | .storing _ _ processCount true => m.valid taken = processCount ∧ processCount%defaultBatchSize ≠ 0
  | .storing _ _ processCount false => m.valid taken = processCount+1 ∧ (processCount+1)%defaultBatchSize = 0
  | .reporting _ next => Sound taken next ∧ 0 < m.sent taken next
  | .advancing batch processCount => m.valid taken = processCount+1 ∧ batch.length = (processCount+1)%defaultBatchSize
  | .returned => True

variable {m}

theorem failures_mono {a b : ℕ} (h : a ≤ b) : m.failures a ≤ m.failures b := by
  unfold failures
  split
  · exact h
  · exact le_rfl

theorem failures_of_storeFails (h : m.storeFails = true) (a : ℕ) : m.failures a = a := by simp [failures,h]

theorem valid_append (a b : List (List String)) : m.valid (a ++ b) = m.valid a+m.valid b := countP_append ..

theorem unparsable_append (a b : List (List String)) : m.unparsable (a ++ b) = m.unparsable a+m.unparsable b :=
  countP_append ..

theorem counts_of_ok {record : List String} {txn : Reconciliation.ExternalTransaction} (h : m.parse record = .ok txn) :
    m.valid [record] = 1 ∧ m.unparsable [record] = 0 := by
  simp [valid,unparsable,h,Except.toOption]

theorem counts_of_error {record err : _} (h : m.parse record = .error err) : m.valid [record] = 0 ∧ m.unparsable [record] = 1 := by
  simp [valid,unparsable,h,Except.toOption]

theorem div_le_batches (v : ℕ) : v/defaultBatchSize ≤ batches v := by
  simp only [batches,defaultBatchSize]
  omega

theorem batches_mono {v w : ℕ} (h : v ≤ w) : batches v ≤ batches w := Nat.div_le_div_right (Nat.add_le_add_right h _)

theorem sent_le {taken : List (List String)} {w : Worker} (h : m.Sound taken w) : m.sent taken w ≤ m.most taken := by
  induction w with
  | waiting batch processCount =>
    obtain ⟨rfl,-⟩ := h
    exact Nat.add_le_add_left (failures_mono (div_le_batches _)) _
  | checking record batch processCount =>
    obtain ⟨earlier,rfl,rfl,-⟩ := h
    simp only [sent,most,dropLast_concat,unparsable_append,valid_append]
    exact Nat.add_le_add (Nat.le_add_right ..) (failures_mono ((div_le_batches _).trans (batches_mono (Nat.le_add_right ..))))
  | storing rest batch processCount last =>
    have hvalid : processCount ≤ m.valid taken := by
      cases last with
      | true => exact h.1.ge
      | false => exact (Nat.le_succ _).trans h.1.ge
    exact Nat.add_le_add_left (failures_mono ((div_le_batches _).trans (batches_mono hvalid))) _
  | reporting err next ih => exact (Nat.sub_le ..).trans (ih h.1)
  | advancing batch processCount =>
    obtain ⟨hvalid,-⟩ := h
    simp only [sent,most,hvalid]
    exact Nat.add_le_add_left (failures_mono (div_le_batches _)) _
  | returned => exact le_rfl

section

variable {taken : List (List String)} {cancelled : Bool} {w w' : Worker} {effect : Effect}

theorem sound_step (h : m.Sound taken w) (hstep : WorkerStep m cancelled w effect w') :
    m.Sound (taken ++ effect.received) w' ∧ m.sent taken w+effect.reported ≤ m.sent (taken ++ effect.received) w' := by
  cases hstep with
  | receive record batch processCount =>
    refine ⟨⟨taken,rfl,h.1,h.2⟩,?_⟩
    simp [sent,received,reported]
  | finish processCount =>
    simp only [received,append_nil]
    exact ⟨trivial,sent_le h⟩
  | flush batch processCount hbatch =>
    simp only [received,append_nil]
    refine ⟨⟨h.1,fun hzero => hbatch (length_eq_zero_iff.mp (h.2.trans hzero))⟩,le_rfl⟩
  | cancel record batch processCount hcancelled =>
    simp only [received,append_nil]
    exact ⟨trivial,sent_le h⟩
  | unparsable record batch processCount err hcancelled hparse =>
    obtain ⟨earlier,rfl,hvalid,hlength⟩ := h
    obtain ⟨hone,hnone⟩ := counts_of_error hparse
    simp only [received,append_nil,Sound,sent,reported,dropLast_concat,valid_append,unparsable_append,hone,
      hnone,add_zero]
    exact ⟨⟨⟨hvalid,hlength⟩,by omega⟩,by omega⟩
  | append record batch processCount txn hcancelled hparse hroom =>
    obtain ⟨earlier,rfl,hvalid,hlength⟩ := h
    obtain ⟨hone,hnone⟩ := counts_of_ok hparse
    simp only [received,append_nil,Sound,sent,reported,dropLast_concat,valid_append,unparsable_append,hone,
      hnone,add_zero,length_append,length_singleton]
    refine ⟨⟨by rw [hvalid],?_⟩,Nat.add_le_add_left (failures_mono (Nat.div_le_div_right (Nat.le_succ _))) _⟩
    simp only [defaultBatchSize] at hlength hroom ⊢
    omega
  | full record batch processCount txn hcancelled hparse hfull =>
    obtain ⟨earlier,rfl,hvalid,hlength⟩ := h
    obtain ⟨hone,hnone⟩ := counts_of_ok hparse
    simp only [received,append_nil,Sound,sent,reported,dropLast_concat,valid_append,unparsable_append,hone,
      hnone,add_zero,le_refl,and_true]
    simp only [defaultBatchSize] at hlength hfull ⊢
    omega
  | store txn rest batch processCount last =>
    simp only [received,append_nil]
    cases last with
    | true => exact ⟨h,le_rfl⟩
    | false => exact ⟨h,le_rfl⟩
  | fail err txn rest batch processCount last hfails =>
    simp only [received,append_nil]
    cases last with
    | true =>
      obtain ⟨hvalid,hpart⟩ := h
      have hmore : processCount/defaultBatchSize+1 ≤ batches processCount := by
        simp only [batches,defaultBatchSize] at hpart ⊢
        omega
      simp only [Worker.afterBatch,if_true,Sound,sent,reported,failures_of_storeFails hfails,hvalid,true_and]
      simp only [defaultBatchSize] at hmore ⊢
      omega
    | false =>
      obtain ⟨hvalid,hfull⟩ := h
      simp only [Worker.afterBatch,Bool.false_eq_true,if_false,Sound,sent,reported,failures_of_storeFails hfails,hvalid,
        length_nil,hfull,and_self,true_and]
      simp only [defaultBatchSize] at hfull ⊢
      omega
  | count batch processCount last =>
    simp only [received,append_nil]
    cases last with
    | true => exact ⟨trivial,sent_le h⟩
    | false =>
      obtain ⟨hvalid,hfull⟩ := h
      exact ⟨⟨hvalid,hfull.symm⟩,Nat.add_le_add_left (failures_mono (Nat.div_le_div_right (Nat.le_succ _))) _⟩
  | report err next =>
    simp only [received,append_nil,sent,reported]
    have hpos := h.2
    exact ⟨h.1,by omega⟩
  | advance batch processCount hcheck =>
    simp only [received,append_nil]
    exact ⟨h,le_rfl⟩
  | leave batch processCount hcancelled hcheck =>
    simp only [received,append_nil]
    exact ⟨trivial,sent_le h⟩

end

end CsvImport

open CsvImport

/-- The rows that the reader has not read yet. -/
def Reader.rest : Reader → List (Except String (List String))
  | .reading rest _ => rest
  | .sending _ rest _ => rest
  | .reporting _ rest _ => rest
  | .done => []

/-- The record that the reader has read and not handed over. -/
def Reader.held : Reader → List (List String)
  | .sending record _ _ => [record]
  | _ => []

/-- The errors that the reader has found and not reported. -/
def Reader.pending : Reader → ℕ
  | .reporting _ _ _ => 1
  | _ => 0

/-- The worker takes no more records. -/
def Worker.leaving : Worker → Bool
  | .storing _ _ _ last => last
  | .reporting _ next => next.leaving
  | .returned => true
  | _ => false

variable {m : CsvImport} {s t : ImportState m}

/-- The reader has read `pre`. What the workers have taken comes from there, and the errors are those of `pre` and of the
workers. -/
structure Follows (s : ImportState m) (pre : List (Except String (List String))) : Prop where
  rows : s.reader = .done ∧ pre <+: m.rows ∨ m.rows = pre ++ s.reader.rest
  taken : ∀ p : List String → Bool, (∑ i, (s.taken i).countP p)+s.shared.queue.countP p+s.reader.held.countP p ≤
    (records pre).countP p
  errs : s.shared.errs.length+s.reader.pending ≤ unreadable pre+∑ i, m.sent (s.taken i) (s.workers i)
  last : 0 < s.reader.pending → ∃ earlier err, pre = earlier ++ [.error err]

/-- What holds in every state of an import. -/
structure Tracked (s : ImportState m) : Prop where
  follows : ∃ pre, Follows s pre
  sound : ∀ i, m.Sound (s.taken i) (s.workers i)
  room : s.shared.errs.length ≤ m.workerCount
  rowsClosed : s.shared.rowsClosed = true ↔ s.reader = .done
  errsClosed : s.shared.errsClosed = true → ∀ i, s.workers i = .returned
  result : s.result ≠ none → s.shared.errsClosed = true
  leaving : ∀ i, (s.workers i).leaving = true →
    s.shared.rowsClosed = true ∧ s.shared.queue = [] ∨ s.cancelled = true ∧ s.taken i ≠ []

theorem records_append (a b : List (Except String (List String))) : records (a ++ b) = records a ++ records b :=
  filterMap_append ..

theorem unreadable_append (a b : List (Except String (List String))) : unreadable (a ++ b) = unreadable a+unreadable b :=
  countP_append ..

variable {pre : List (Except String (List String))} {effect : Effect} {shared c c' : Shared} {capacity : ℕ}
variable {w : Worker}

theorem Follows.reader {reader : Reader}
    (h : Follows s pre) (hstep : ReaderStep s.cancelled s.reader effect reader)
    (htakes : Takes m.workerCount s.shared effect shared) : ∃ pre, Follows { s with reader := reader, shared := shared } pre := by
  obtain ⟨hrows,htaken,herrs,-⟩ := h
  generalize hold : s.reader = old at *
  have hopen : ∀ {rest}, old.rest = rest → old ≠ .done → m.rows = pre ++ rest := by
    rintro rest rfl hdone
    exact hrows.resolve_left fun h => hdone h.1
  cases hstep with
  | read record rest rowNum =>
    cases htakes
    refine ⟨pre ++ [.ok record],.inr ?_,fun p => ?_,?_,nofun⟩
    · rw [hopen rfl nofun]
      simp [Reader.rest]
    · have hp := htaken p
      simp only [records_append,countP_append,Reader.held,countP_nil] at hp ⊢
      exact Nat.add_le_add_right hp _
    · rw [unreadable_append]
      exact herrs.trans (Nat.add_le_add_right (Nat.le_add_right ..) _)
  | unreadable err rest rowNum =>
    cases htakes
    refine ⟨pre ++ [.error err],.inr ?_,fun p => ?_,?_,fun _ => ⟨pre,err,rfl⟩⟩
    · rw [hopen rfl nofun]
      simp [Reader.rest]
    · have hp := htaken p
      simp only [records_append,countP_append] at hp ⊢
      exact hp.trans (Nat.le_add_right ..)
    · rw [unreadable_append]
      simp only [pending] at herrs ⊢
      have hone : unreadable [.error err] = 1 := rfl
      omega
  | eof rowNum =>
    cases htakes
    refine ⟨pre,.inl ⟨rfl,?_⟩,htaken,herrs,nofun⟩
    rw [hopen rfl nofun]
    exact prefix_append ..
  | send record rest rowNum =>
    cases htakes
    refine ⟨pre,.inr (hopen rfl nofun),fun p => ?_,herrs,nofun⟩
    have hp := htaken p
    simp only [countP_append,held,countP_nil] at hp ⊢
    omega
  | cancel record rest rowNum hcancelled =>
    cases htakes
    refine ⟨pre,.inl ⟨rfl,?_⟩,fun p => ?_,herrs,nofun⟩
    · rw [hopen rfl nofun]
      exact prefix_append ..
    · have hp := htaken p
      simp only [held,countP_nil] at hp ⊢
      omega
  | report err rest rowNum =>
    cases htakes
    refine ⟨pre,.inr (hopen rfl nofun),htaken,?_,nofun⟩
    simp only [pending,length_append,length_singleton] at herrs ⊢
    omega

theorem Takes.errs (h : Takes capacity c effect c') :
    c'.errs.length = c.errs.length+effect.reported := by
  cases h <;> simp [reported]

theorem Takes.room (h : Takes capacity c effect c') (hroom : c.errs.length ≤ capacity) :
    c'.errs.length ≤ capacity := by
  cases h with
  | report err hless => simpa using hless
  | _ => exact hroom

theorem Takes.errsClosed (h : Takes capacity c effect c') :
    c'.errsClosed = c.errsClosed := by
  cases h <;> rfl

theorem WorkerStep.queue {cancelled : Bool} {w' : Worker}
    (hstep : WorkerStep m cancelled w effect w') (h : Takes capacity c effect c') :
    c.queue = effect.received ++ c'.queue ∧ c'.rowsClosed = c.rowsClosed := by
  cases hstep <;> cases h <;> simp_all [received]

theorem Follows.worker {i : Fin m.workerCount} (h : Follows s pre) (hsound : m.Sound (s.taken i) (s.workers i))
    (hstep : WorkerStep m s.cancelled (s.workers i) effect w) (htakes : Takes m.workerCount s.shared effect shared) :
    Follows { s with
      workers := update s.workers i w
      taken := update s.taken i (s.taken i ++ effect.received)
      shared := shared } pre := by
  refine ⟨h.rows,fun p => ?_,?_,h.last⟩
  · have hsum := Batching.sum_update₂ (fun l _ => l.countP p) s.taken s.workers i (s.taken i ++ effect.received) w
    have hp := h.taken p
    rw [(hstep.queue htakes).1] at hp
    simp only [countP_append] at hsum hp ⊢
    omega
  · have hsum := Batching.sum_update₂ m.sent s.taken s.workers i (s.taken i ++ effect.received) w
    have hsent := (sound_step hsound hstep).2
    have herrs := h.errs
    have hnew := htakes.errs
    dsimp only at hsum ⊢
    omega

theorem Tracked.initial (m : CsvImport) : Tracked m.initial where
  follows := ⟨[],.inr rfl,fun p => by simp [CsvImport.initial,held],by simp [CsvImport.initial,pending],nofun⟩
  sound _ := ⟨rfl,rfl⟩
  room := Nat.zero_le _
  rowsClosed := ⟨nofun,nofun⟩
  errsClosed := nofun
  result h := absurd rfl h
  leaving := nofun

theorem WorkerStep.leaves {cancelled : Bool} {w' : Worker}
    {taken : List (List String)} (hstep : WorkerStep m cancelled w effect w') (h : Takes capacity c effect c')
    (hsound : m.Sound taken w) (hw : w'.leaving = true) :
    w.leaving = true ∨ (c.rowsClosed = true ∧ c.queue = []) ∨ cancelled = true ∧ taken ≠ [] := by
  cases hstep with
  | finish => cases h with | drained hqueue hclosed => exact .inr (.inl ⟨hclosed,hqueue⟩)
  | flush => cases h with | drained hqueue hclosed => exact .inr (.inl ⟨hclosed,hqueue⟩)
  | cancel record batch processCount hcancelled =>
    obtain ⟨earlier,rfl,-⟩ := hsound
    exact .inr (.inr ⟨hcancelled,by simp⟩)
  | leave batch processCount hcancelled hcheck =>
    refine .inr (.inr ⟨hcancelled,?_⟩)
    rintro rfl
    cases hsound.1
  | store txn rest batch processCount last => exact .inl hw
  | fail err txn rest batch processCount last hfails =>
    cases last with
    | true => exact .inl rfl
    | false => cases hw
  | count batch processCount last =>
    cases last with
    | true => exact .inl rfl
    | false => cases hw
  | report err next => exact .inl hw
  | _ => cases hw

theorem Tracked.worker {i : Fin m.workerCount} (h : Tracked s)
    (hstep : WorkerStep m s.cancelled (s.workers i) effect w) (htakes : Takes m.workerCount s.shared effect shared) :
    Tracked { s with
      workers := update s.workers i w
      taken := update s.taken i (s.taken i ++ effect.received)
      shared := shared } := by
  obtain ⟨pre,hfollows⟩ := h.follows
  obtain ⟨hqueue,hclosed⟩ := hstep.queue htakes
  refine ⟨⟨pre,hfollows.worker (h.sound i) hstep htakes⟩,fun j => ?_,htakes.room h.room,?_,fun herrs => ?_,fun hresult => ?_,
    fun j hj => ?_⟩
  · dsimp only
    by_cases hj : j = i
    · subst hj
      rw [update_self,update_self]
      exact (sound_step (h.sound j) hstep).1
    · rw [update_of_ne hj,update_of_ne hj]
      exact h.sound j
  · rw [← h.rowsClosed,← hclosed]
  · rw [htakes.errsClosed] at herrs
    rw [h.errsClosed herrs i] at hstep
    cases hstep
  · rw [htakes.errsClosed]
    exact h.result hresult
  · dsimp only at hj ⊢
    have hdrained : s.shared.rowsClosed = true ∧ s.shared.queue = [] → shared.rowsClosed = true ∧ shared.queue = [] := by
      rintro ⟨hrows,hempty⟩
      rw [hqueue,append_eq_nil_iff] at hempty
      exact ⟨hclosed.trans hrows,hempty.2⟩
    by_cases hji : j = i
    · subst hji
      rw [update_self] at hj ⊢
      have hmore : s.taken j ≠ [] → s.taken j ++ effect.received ≠ [] := fun hne => by simp [hne]
      rcases hstep.leaves htakes (h.sound j) hj with hleaving | hrows | ⟨hcancelled,hne⟩
      · exact (h.leaving j hleaving).imp hdrained fun h => ⟨h.1,hmore h.2⟩
      · exact .inl (hdrained hrows)
      · exact .inr ⟨hcancelled,hmore hne⟩
    · rw [update_of_ne hji] at hj ⊢
      exact (h.leaving j hj).imp hdrained id

theorem Tracked.reader {reader : Reader} (h : Tracked s)
    (hstep : ReaderStep s.cancelled s.reader effect reader) (htakes : Takes m.workerCount s.shared effect shared) :
    Tracked { s with reader := reader, shared := shared } := by
  obtain ⟨pre,hfollows⟩ := h.follows
  have hold := h.rowsClosed
  have hkeep : shared.rowsClosed = true ↔ reader = .done := by
    generalize s.reader = old at hold hstep
    cases hstep <;> cases htakes <;> simp_all
  refine ⟨hfollows.reader hstep htakes,h.sound,htakes.room h.room,hkeep,fun herrs => ?_,fun hresult => ?_,fun i hi => ?_⟩
  · rw [htakes.errsClosed] at herrs
    exact h.errsClosed herrs
  · rw [htakes.errsClosed]
    exact h.result hresult
  · refine (h.leaving i hi).imp (fun hrows => ?_) id
    -- The reader does not move any more once it has closed the channel.
    rw [hold.mp hrows.1] at hstep
    cases hstep

theorem Tracked.move (h : Tracked s) (hmove : ImportMove m s t) : Tracked t := by
  cases hmove with
  | step hstep =>
    cases hstep with
    | reader effect reader shared hstep htakes => exact h.reader hstep htakes
    | worker i effect w shared hstep htakes => exact h.worker hstep htakes
    | close hreturned hopen =>
      obtain ⟨pre,hfollows⟩ := h.follows
      exact ⟨⟨pre,hfollows.rows,hfollows.taken,hfollows.errs,hfollows.last⟩,h.sound,h.room,h.rowsClosed,fun _ => hreturned,
        fun _ => rfl,h.leaving⟩
    | collect hclosed hresult =>
      obtain ⟨pre,hfollows⟩ := h.follows
      exact ⟨⟨pre,hfollows.rows,hfollows.taken,hfollows.errs,hfollows.last⟩,h.sound,h.room,h.rowsClosed,h.errsClosed,
        fun _ => hclosed,h.leaving⟩
  | cancel =>
    obtain ⟨pre,hfollows⟩ := h.follows
    exact ⟨⟨pre,hfollows.rows,hfollows.taken,hfollows.errs,hfollows.last⟩,h.sound,h.room,h.rowsClosed,h.errsClosed,
      h.result,fun i hi => (h.leaving i hi).imp id fun h => ⟨rfl,h.2⟩⟩

theorem Tracked.reaches (h : m.Reaches s) : Tracked s :=
  Transitions.invariant (fun _ _ htracked hmove => htracked.move hmove) h (.initial m)

theorem countP_records_le (h : pre <+: m.rows) (p : List String → Bool) :
    (records pre).countP p ≤ (records m.rows).countP p := by
  obtain ⟨rest,hrest⟩ := h
  rw [← hrest,records_append,countP_append]
  exact Nat.le_add_right ..

theorem unreadable_le (h : pre <+: m.rows) : unreadable pre ≤ unreadable m.rows := by
  obtain ⟨rest,hrest⟩ := h
  rw [← hrest,unreadable_append]
  exact Nat.le_add_right ..

theorem Follows.read (h : Follows s pre) : pre <+: m.rows := by
  rcases h.rows with h | h
  · exact h.2
  · rw [h]
    exact prefix_append ..

theorem mostBatches_mono {v w : ℕ} (h : v ≤ w) (n : ℕ) : mostBatches v n ≤ mostBatches w n := by
  simp only [mostBatches,defaultBatchSize]
  omega

theorem Follows.sum_most_le (h : Follows s pre) :
    unreadable pre+∑ i, m.most (s.taken i) ≤ m.errorBound := by
  have hle : ∀ p : List String → Bool, ∑ i, (s.taken i).countP p ≤ (records m.rows).countP p := by
    intro p
    have hp := (h.taken p).trans (countP_records_le h.read p)
    omega
  have hbatches : ∑ i, batches (m.valid (s.taken i)) ≤ mostBatches (m.valid (records m.rows)) m.workerCount := by
    have hceil := Batching.sum_ceil_le (fun i => m.valid (s.taken i)) (k := defaultBatchSize) (by decide)
    rw [Fintype.card_fin] at hceil
    exact hceil.trans (mostBatches_mono (hle _) _)
  have hfailures : ∑ i, m.failures (batches (m.valid (s.taken i))) ≤
      m.failures (mostBatches (m.valid (records m.rows)) m.workerCount) := by
    unfold failures
    split
    · exact hbatches
    · simp
  have hunparsable : ∑ i, m.unparsable (s.taken i) ≤ m.unparsable (records m.rows) := hle _
  have hunreadable := unreadable_le h.read
  simp only [most,sum_add_distrib,errorBound]
  omega

def Reports (s : ImportState m) : Prop := 0 < s.reader.pending ∨ ∃ i err next, s.workers i = .reporting err next

theorem Tracked.errs_lt (h : Tracked s) (hreports : Reports s) : s.shared.errs.length < m.errorBound := by
  obtain ⟨pre,hfollows⟩ := h.follows
  have hsent : ∑ i, m.sent (s.taken i) (s.workers i) ≤ ∑ i, m.most (s.taken i) :=
    Finset.sum_le_sum fun i _ => sent_le (h.sound i)
  have hbound := hfollows.sum_most_le
  have herrs := hfollows.errs
  rcases hreports with hreader | ⟨i,err,next,hi⟩
  · omega
  have hless : ∑ i, m.sent (s.taken i) (s.workers i) < ∑ i, m.most (s.taken i) := by
    refine sum_lt_sum (fun j _ => sent_le (h.sound j)) ⟨i,mem_univ i,?_⟩
    have hsound := h.sound i
    rw [hi] at hsound ⊢
    exact (Nat.sub_lt hsound.2 one_pos).trans_le (sent_le hsound.1)
  omega

end LedgerForge.Files
