import LedgerForge.Files.Blocking

/-! # Imports whose rows are handled one after the other

The reader hands over one row at a time, and the worker that receives it is done with it before the next row is read. Who
receives a row is free.
-/

namespace LedgerForge.Files

open Relation Function Finset
open CsvImport

/-- A state that the import reaches before it returns, without the records that the workers have received. -/
def CanReach (m : CsvImport) (reader : Reader) (workers : Fin m.workerCount → Worker) (shared : Shared) (cancelled : Bool) : Prop :=
  ∃ s, m.Reaches s ∧ s.reader = reader ∧ s.workers = workers ∧ s.shared = shared ∧ s.cancelled = cancelled ∧ s.result = none

variable {m : CsvImport} {r r' : Reader} {workers : Fin m.workerCount → Worker} {c c' : Shared} {cancelled : Bool}
  {effect : Effect} {i : Fin m.workerCount} {w w' : Worker}

theorem CanReach.reader (h : CanReach m r workers c cancelled) (hstep : ReaderStep cancelled r effect r')
    (htakes : Takes m.workerCount c effect c') : CanReach m r' workers c' cancelled := by
  obtain ⟨s,hs,rfl,rfl,rfl,rfl,hresult⟩ := h
  exact ⟨_,hs.tail (.step (.reader effect r' c' hstep htakes)),rfl,rfl,rfl,rfl,hresult⟩

theorem CanReach.worker (h : CanReach m r (update workers i w) c cancelled) (hstep : WorkerStep m cancelled w effect w')
    (htakes : Takes m.workerCount c effect c') : CanReach m r (update workers i w') c' cancelled := by
  obtain ⟨s,hs,rfl,hw,rfl,rfl,hresult⟩ := h
  have hi : s.workers i = w := by rw [hw,update_self]
  refine ⟨_,hs.tail (.step (.worker i effect w' c' (hi ▸ hstep) htakes)),rfl,?_,rfl,rfl,hresult⟩
  rw [hw,update_idem]

theorem CanReach.cancel (h : CanReach m r workers c cancelled) (hcancellable : m.cancellable = true) :
    CanReach m r workers c true := by
  obtain ⟨s,hs,rfl,rfl,rfl,-,hresult⟩ := h
  exact ⟨_,hs.tail (.cancel hcancellable),rfl,rfl,rfl,rfl,hresult⟩

/-- Between two rows. -/
structure Quiet (c : Shared) : Prop where
  queue : c.queue = []
  errsOpen : c.errsClosed = false

theorem CanReach.errs_lt (h : CanReach m r workers c cancelled)
    (hreports : 0 < r.pending ∨ ∃ i err next, workers i = .reporting err next) : c.errs.length < m.errorBound := by
  obtain ⟨s,hs,rfl,rfl,rfl,rfl,-⟩ := h
  exact (Tracked.reaches hs).errs_lt hreports

def Blocks (m : CsvImport) : Prop := ∃ s, m.Reaches s ∧ s.cancelled = false ∧ Reports s ∧ m.workerCount ≤ s.shared.errs.length

theorem not_blocks (h : m.errorBound ≤ m.workerCount) : ¬ Blocks m := by
  rintro ⟨s,hs,-,hreports,hfull⟩
  have hless := (Tracked.reaches hs).errs_lt hreports
  omega

theorem owed_pos (err : String) (next : Worker) : 0 < m.owed (.reporting err next) := Nat.succ_pos _

theorem Blocks.exists_stuck (h : Blocks m) : ∃ t, m.Reaches t ∧ Stuck t := by
  obtain ⟨s,hs,hcancelled,hreports,hfull⟩ := h
  refine Files.exists_stuck hs hcancelled ?_
  have hone : 0 < s.reader.pending+∑ i, m.owed (s.workers i) := by
    rcases hreports with hreader | ⟨i,err,next,hi⟩
    · exact Nat.add_pos_left hreader _
    refine Nat.add_pos_right _ ((owed_pos (m := m) err next).trans_le ?_)
    rw [← hi]
    exact single_le_sum (f := fun i => m.owed (s.workers i)) (fun _ _ => Nat.zero_le _) (mem_univ i)
  simp only [ImportState.errors]
  omega

theorem CanReach.report {err : String} (h : CanReach m r (update workers i (.reporting err w)) c false) (hc : Quiet c) :
    Blocks m ∨ CanReach m r (update workers i w) { c with errs := c.errs ++ [err] } false := by
  by_cases hroom : c.errs.length < m.workerCount
  · exact .inr (h.worker (.report err w) (.report err hroom hc.errsOpen))
  · obtain ⟨s,hs,rfl,hw,rfl,hcancelled,-⟩ := h
    exact .inl ⟨s,hs,hcancelled,.inr ⟨i,err,w,by rw [hw,update_self]⟩,not_lt.mp hroom⟩

variable {rest : List (Except String (List String))} {rowNum processCount : ℕ}
variable {batch : List Reconciliation.ExternalTransaction}

theorem CanReach.hand {record : List String}
    (h : CanReach m (.reading (.ok record :: rest) rowNum) workers c cancelled) (hc : Quiet c)
    (hw : workers i = .waiting batch processCount) :
    CanReach m (.reading rest (rowNum+1)) (update workers i (.checking record batch processCount)) c cancelled := by
  have hroom : c.queue.length < defaultChannelSize := by
    rw [hc.queue]
    decide
  have hsent := (h.reader (.read record rest rowNum) .skip).reader (.send record rest (rowNum+1)) (.send record hroom)
  rw [← update_eq_self i workers,hw] at hsent
  have hreceived := hsent.worker (.receive record batch processCount) (.receive record [] (by rw [hc.queue]; rfl))
  have hsame : { c with queue := [] } = c := by rw [← hc.queue]
  simpa only [hsame] using hreceived

theorem CanReach.store {rest : List Reconciliation.ExternalTransaction} {last : Bool}
    (h : CanReach m r (update workers i (.storing rest batch processCount last)) c cancelled) (hc : Quiet c) :
    ∃ c', CanReach m r (update workers i (.storing [] batch processCount last)) c' cancelled ∧ Quiet c' ∧
      c'.errs = c.errs := by
  induction rest generalizing c with
  | nil => exact ⟨c,h,hc,rfl⟩
  | cons txn rest ih =>
    have hnext := h.worker (.store txn rest batch processCount last) (.store txn)
    have hrest := ih hnext ⟨hc.queue,hc.errsOpen⟩
    exact hrest

theorem CanReach.full (hbatch : batch ≠ [])
    (h : CanReach m r (update workers i (.storing batch batch processCount false)) c false) (hc : Quiet c) :
    Blocks m ∨ ∃ c', CanReach m r (update workers i (.advancing [] processCount)) c' false ∧ Quiet c' ∧
      c'.errs.length = c.errs.length+m.failures 1 := by
  by_cases hfails : m.storeFails = true
  · obtain ⟨txn,rest,rfl⟩ := List.exists_cons_of_ne_nil hbatch
    have hfailed := h.worker (.fail "" txn rest (txn :: rest) processCount false hfails) .skip
    refine (hfailed.report hc).imp id fun h => ⟨{ c with errs := c.errs ++ [""] },h,⟨hc.queue,hc.errsOpen⟩,?_⟩
    simp [failures,hfails]
  · obtain ⟨c',h,hc',herrs⟩ := h.store hc
    have hcounted := h.worker (.count batch processCount false) (.count _)
    refine .inr ⟨_,hcounted,⟨hc'.queue,hc'.errsOpen⟩,?_⟩
    simp [failures,hfails,herrs]

def CsvImport.validRow (m : CsvImport) (row : Except String (List String)) : ℕ := m.valid (records [row])

/-- The next row goes to a worker, which reports what it has to. -/
theorem CanReach.row {row : Except String (List String)}
    (h : CanReach m (.reading (row :: rest) rowNum) workers c false) (hc : Quiet c) (hw : workers i = .waiting batch processCount)
    (hbatch : batch.length = processCount%defaultBatchSize) :
    Blocks m ∨ ∃ rowNum' batch' c',
      CanReach m (.reading rest rowNum') (update workers i (.waiting batch' (processCount+m.validRow row))) c' false ∧
      Quiet c' ∧ batch'.length = (processCount+m.validRow row)%defaultBatchSize ∧
      c'.errs.length+m.failures (processCount/defaultBatchSize) =
        c.errs.length+m.rowsOwed [row]+m.failures ((processCount+m.validRow row)/defaultBatchSize) := by
  cases row with
  | error err =>
    have hnone : m.validRow (.error err) = 0 := rfl
    have hreport := h.reader (.unreadable err rest rowNum) .skip
    rw [hnone,rowsOwed_error]
    by_cases hroom : c.errs.length < m.workerCount
    · have hreported := hreport.reader (.report _ rest rowNum) (.report _ hroom hc.errsOpen)
      rw [← update_eq_self i workers,hw] at hreported
      exact .inr ⟨rowNum,batch,_,hreported,⟨hc.queue,hc.errsOpen⟩,hbatch,by simp⟩
    · obtain ⟨s,hs,hreader,rfl,rfl,hcancelled,-⟩ := hreport
      exact .inl ⟨s,hs,hcancelled,.inl (by rw [hreader]; exact one_pos),not_lt.mp hroom⟩
  | ok record =>
    have hchecking := h.hand hc hw
    rw [rowsOwed_ok]
    cases hparse : m.parse record with
    | error err =>
      obtain ⟨hnone,hone⟩ := counts_of_error hparse
      have hnone : m.validRow (.ok record) = 0 := hnone
      rw [hnone,hone]
      refine ((hchecking.worker (.unparsable record batch processCount err rfl hparse) .skip).report hc).imp id fun h => ?_
      exact ⟨rowNum+1,batch,_,h,⟨hc.queue,hc.errsOpen⟩,hbatch,by simp⟩
    | ok txn =>
      obtain ⟨hone,hnone⟩ := counts_of_ok hparse
      have hone : m.validRow (.ok record) = 1 := hone
      rw [hone,hnone]
      by_cases hfull : defaultBatchSize ≤ batch.length+1
      · refine ((hchecking.worker (.full record batch processCount txn rfl hparse hfull) .skip).full (by simp) hc).imp id ?_
        rintro ⟨c',h,hc',herrs⟩
        have hlast : (processCount+1)%defaultBatchSize = 0 := by
          simp only [defaultBatchSize] at hbatch hfull ⊢
          omega
        have hdiv : (processCount+1)/defaultBatchSize = processCount/defaultBatchSize+1 := by
          simp only [defaultBatchSize] at hbatch hfull ⊢
          omega
        refine ⟨rowNum+1,[],c',h.worker (.advance _ _ (by simp)) .skip,hc',hlast.symm,?_⟩
        rw [herrs]
        unfold failures
        split <;> omega
      · have hroom := not_le.mp hfull
        have hmod : (processCount+1)%defaultBatchSize = batch.length+1 := by
          simp only [defaultBatchSize] at hbatch hroom ⊢
          omega
        have hdiv : (processCount+1)/defaultBatchSize = processCount/defaultBatchSize := by
          simp only [defaultBatchSize] at hbatch hroom ⊢
          omega
        refine .inr ⟨rowNum+1,batch ++ [txn],c,?_,hc,?_,by rw [hdiv,add_zero]⟩
        · exact (hchecking.worker (.append record batch processCount txn rfl hparse hroom) .skip).worker (.advance _ _ (by simp)) .skip
        · rw [hmod,List.length_append,List.length_singleton]

def spread (n k j : ℕ) : ℕ := if j = 0 then max (min k 1) (k+1-n) else if j < k then 1 else 0

def nextWorker (m : CsvImport) (k : ℕ) : Fin m.workerCount := if h : k < m.workerCount then ⟨k,h⟩ else ⟨0,m.workers_pos⟩

theorem nextWorker_val (k : ℕ) : (nextWorker m k).val = if k < m.workerCount then k else 0 := by
  unfold nextWorker
  split <;> rfl

variable {v : ℕ}

theorem spread_add (hv : v ≤ 1) (k : ℕ) (j : Fin m.workerCount) :
    spread m.workerCount (k+v) j = spread m.workerCount k j+if j = nextWorker m k then v else 0 := by
  simp only [Fin.ext_iff,nextWorker_val,spread]
  split_ifs <;> omega

theorem spread_batches {n : ℕ} (hn : 0 < n) (v j : ℕ) :
    spread n v j/defaultBatchSize+min (spread n v j%defaultBatchSize) 1 =
      (if j < v then 1 else 0)+if j = 0 then (v-n)/defaultBatchSize else 0 := by
  unfold spread defaultBatchSize
  split_ifs <;> omega

theorem sum_spread (v : ℕ) : ∑ j : Fin m.workerCount, (spread m.workerCount v j/defaultBatchSize+min (spread m.workerCount v j%defaultBatchSize) 1) =
    mostBatches v m.workerCount := by
  have hfirst : ∑ j : Fin m.workerCount, (if j.val = 0 then (v-m.workerCount)/defaultBatchSize else 0) =
      (v-m.workerCount)/defaultBatchSize := by
    rw [Fin.sum_univ_eq_sum_range (fun j => if j = 0 then (v-m.workerCount)/defaultBatchSize else 0)]
    simp [m.workers_pos]
  simp only [spread_batches m.workers_pos,sum_add_distrib,Batching.sum_indicator_lt,hfirst]
  rfl

def Spread (m : CsvImport) (workers : Fin m.workerCount → Worker) (k : ℕ) : Prop :=
  ∀ j, ∃ batch, workers j = .waiting batch (spread m.workerCount k j) ∧
    batch.length = spread m.workerCount k j%defaultBatchSize

variable {k : ℕ}

theorem Spread.next (h : Spread m workers k) (hv : v ≤ 1)
    (hbatch : batch.length = (spread m.workerCount k (nextWorker m k)+v)%defaultBatchSize) :
    Spread m (update workers (nextWorker m k) (.waiting batch (spread m.workerCount k (nextWorker m k)+v))) (k+v) := by
  intro j
  rw [spread_add hv]
  by_cases hj : j = nextWorker m k
  · subst hj
    exact ⟨batch,by rw [update_self,if_pos rfl],by rw [hbatch,if_pos rfl]⟩
  · rw [update_of_ne hj,if_neg hj]
    exact h j

theorem sum_div_spread (hv : v ≤ 1) (k : ℕ) :
    (∑ j : Fin m.workerCount, m.failures (spread m.workerCount (k+v) j/defaultBatchSize))+
        m.failures (spread m.workerCount k (nextWorker m k)/defaultBatchSize) =
      (∑ j : Fin m.workerCount, m.failures (spread m.workerCount k j/defaultBatchSize))+
        m.failures ((spread m.workerCount k (nextWorker m k)+v)/defaultBatchSize) := by
  have hupdate : (fun j : Fin m.workerCount => m.failures (spread m.workerCount (k+v) j/defaultBatchSize)) =
      update (fun j : Fin m.workerCount => m.failures (spread m.workerCount k j/defaultBatchSize)) (nextWorker m k)
        (m.failures ((spread m.workerCount k (nextWorker m k)+v)/defaultBatchSize)) := by
    funext j
    rw [spread_add hv,update_apply]
    split
    · rename_i hj
      rw [hj]
    · rfl
  rw [hupdate]
  exact Batching.sum_update_add ..

/-- The rows are handed out in this way. -/
theorem CanReach.spread
    (h : CanReach m (.reading rest rowNum) workers c false) (hc : Quiet c) (hworkers : Spread m workers k) :
    Blocks m ∨ ∃ rowNum' workers' c', CanReach m (.reading [] rowNum') workers' c' false ∧ Quiet c' ∧
      Spread m workers' (k+m.valid (records rest)) ∧
      c'.errs.length+∑ j : Fin m.workerCount, m.failures (spread m.workerCount k j/defaultBatchSize) =
        c.errs.length+m.rowsOwed rest+
          ∑ j : Fin m.workerCount, m.failures (spread m.workerCount (k+m.valid (records rest)) j/defaultBatchSize) := by
  induction rest generalizing rowNum workers c k with
  | nil => exact .inr ⟨rowNum,workers,c,h,hc,hworkers,by rfl⟩
  | cons row rest ih =>
    obtain ⟨batch,hw,hbatch⟩ := hworkers (nextWorker m k)
    refine (h.row hc hw hbatch).elim .inl ?_
    rintro ⟨rowNum',batch',c',h',hc',hbatch',herrs⟩
    have hrecords : m.valid (records (row :: rest)) = m.validRow row+m.valid (records rest) := by
      rw [show records (row :: rest) = records [row] ++ records rest from records_append [row] rest,valid_append]
      rfl
    rw [hrecords,rowsOwed_cons]
    have hv : m.validRow row ≤ 1 := by
      refine (List.countP_le_length ..).trans ((List.length_filterMap_le ..).trans ?_)
      exact le_rfl
    refine (ih h' hc' (hworkers.next hv hbatch')).imp id ?_
    rintro ⟨rowNum'',workers'',c'',h'',hc'',hworkers'',herrs''⟩
    rw [add_assoc k] at hworkers'' herrs''
    refine ⟨rowNum'',workers'',c'',h'',hc'',hworkers'',?_⟩
    have hsum := sum_div_spread (m := m) hv k
    omega

/-- An import that can have too many errors gets stuck. -/
theorem exists_stuck_of_bound (hbound : m.workerCount < m.errorBound) : ∃ t, m.Reaches t ∧ Stuck t := by
  have hinitial : CanReach m (.reading m.rows 1) (fun _ => .waiting [] 0) ⟨[],false,[],false,0,[]⟩ false :=
    ⟨m.initial,.refl,rfl,rfl,rfl,rfl,rfl⟩
  have hzero : ∀ j : Fin m.workerCount, spread m.workerCount 0 j = 0 := by
    intro j
    simp only [spread]
    split_ifs <;> omega
  have hspread : Spread m (fun _ => .waiting [] 0) 0 := fun j => ⟨[],by rw [hzero],by rw [hzero]; rfl⟩
  refine (hinitial.spread ⟨rfl,rfl⟩ hspread).elim Blocks.exists_stuck ?_
  rintro ⟨rowNum,workers,c,⟨s,hs,hreader,rfl,rfl,hcancelled,-⟩,hc,hworkers,herrs⟩
  refine exists_stuck hs hcancelled (hbound.trans_le ?_)
  rw [zero_add] at hworkers herrs
  have howed : ∀ j, m.owed (s.workers j) = m.failures (min (spread m.workerCount (m.valid (records m.rows)) j%defaultBatchSize) 1) := by
    intro j
    obtain ⟨batch,hj,hbatch⟩ := hworkers j
    rw [hj,← hbatch]
    rfl
  have hall : (∑ j : Fin m.workerCount, m.failures (spread m.workerCount (m.valid (records m.rows)) j/defaultBatchSize))+
      (∑ j, m.owed (s.workers j)) = m.failures (mostBatches (m.valid (records m.rows)) m.workerCount) := by
    rw [← sum_spread,← sum_add_distrib]
    simp only [howed]
    unfold failures
    split
    · rfl
    · simp
  simp only [hzero,Nat.zero_div,failures_zero,sum_const_zero,List.length_nil] at herrs
  simp only [ImportState.errors,errorBound]
  simp only [rowsOwed] at herrs
  omega

theorem exists_last_records (n : ℕ) (rows : List (Except String (List String))) (h : n ≤ (records rows).length) :
    ∃ first last, rows = first ++ last ∧ (records last).length = n := by
  induction rows with
  | nil => exact ⟨[],[],rfl,(Nat.le_zero.mp h).symm⟩
  | cons row rows ih =>
    by_cases hrest : n ≤ (records rows).length
    · obtain ⟨first,last,rfl,hlast⟩ := ih hrest
      exact ⟨row :: first,last,rfl,hlast⟩
    refine ⟨[],row :: rows,rfl,?_⟩
    have hone : (records (row :: rows)).length = (records [row]).length+(records rows).length := by
      rw [← List.length_append,← records_append]
      rfl
    have hrow : (records [row]).length ≤ 1 := List.length_filterMap_le ..
    omega

theorem CanReach.first {rows : List (Except String (List String))} (hbound : m.errorBound ≤ m.workerCount)
    (h : CanReach m (.reading (rows ++ rest) rowNum) workers c false) (hc : Quiet c)
    (hworkers : ∀ j, ∃ batch processCount, workers j = .waiting batch processCount ∧ batch.length = processCount%defaultBatchSize) :
    ∃ rowNum' workers' c', CanReach m (.reading rest rowNum') workers' c' false ∧ Quiet c' ∧
      ∀ j, ∃ batch processCount, workers' j = .waiting batch processCount := by
  induction rows generalizing rowNum workers c with
  | nil =>
    refine ⟨rowNum,workers,c,h,hc,fun j => ?_⟩
    obtain ⟨batch,processCount,hj,-⟩ := hworkers j
    exact ⟨batch,processCount,hj⟩
  | cons row rows ih =>
    obtain ⟨batch,processCount,hw,hbatch⟩ := hworkers ⟨0,m.workers_pos⟩
    obtain ⟨rowNum',batch',c',h',hc',hbatch',-⟩ := (h.row hc hw hbatch).resolve_left (not_blocks hbound)
    refine ih h' hc' fun j => ?_
    by_cases hj : j = ⟨0,m.workers_pos⟩
    · subst hj
      exact ⟨batch',_,update_self ..,hbatch'⟩
    · rw [update_of_ne hj]
      exact hworkers j

/-- After the end of the context every worker leaves with the next record that it receives. -/
theorem CanReach.leave {rows : List (Except String (List String))} (hbound : m.errorBound ≤ m.workerCount)
    (h : CanReach m (.reading (rows ++ rest) rowNum) workers c true) (hc : Quiet c) (hk : k+(records rows).length = m.workerCount)
    (hreturned : ∀ j : Fin m.workerCount, j.val < k → workers j = .returned)
    (hwaits : ∀ j : Fin m.workerCount, k ≤ j.val → ∃ batch processCount, workers j = .waiting batch processCount) :
    ∃ rowNum' c', CanReach m (.reading rest rowNum') (fun _ => .returned) c' true ∧ Quiet c' := by
  induction rows generalizing rowNum workers c k with
  | nil =>
    have hall : workers = fun _ => .returned := by
      funext j
      refine hreturned j ?_
      have hnone : (records []).length = 0 := rfl
      omega
    exact ⟨rowNum,c,hall ▸ h,hc⟩
  | cons row rows ih =>
    cases row with
    | error err =>
      have hreport := h.reader (.unreadable err (rows ++ rest) rowNum) .skip
      have hroom := (hreport.errs_lt (.inl one_pos)).trans_le hbound
      exact ih (hreport.reader (.report _ (rows ++ rest) rowNum) (.report _ hroom hc.errsOpen)) ⟨hc.queue,hc.errsOpen⟩ hk hreturned
        hwaits
    | ok record =>
      have hmore : (records (.ok record :: rows)).length = (records rows).length+1 := rfl
      have hlt : k < m.workerCount := by omega
      obtain ⟨batch,processCount,hw⟩ := hwaits ⟨k,hlt⟩ le_rfl
      have hleft := (h.hand hc hw).worker (.cancel record batch processCount rfl) .skip
      refine ih (k := k+1) hleft hc (by omega) (fun j hj => ?_) fun j hj => ?_
      · by_cases hjk : j = ⟨k,hlt⟩
        · subst hjk
          rw [update_self]
        rw [update_of_ne hjk]
        have hne : j.val ≠ k := fun h => hjk (Fin.ext h)
        exact hreturned j (by omega)
      · rw [update_of_ne fun h => by rw [h] at hj; exact absurd hj (by simp)]
        exact hwaits j (by omega)

theorem exists_sendsClosed (hbound : m.errorBound ≤ m.workerCount) (hcancellable : m.cancellable = true) (hlate : m.LateUnreadable) :
    ∃ t, m.Reaches t ∧ SendsClosed t := by
  obtain ⟨pre,err,post,hrows,hmany⟩ := hlate
  obtain ⟨first,last,rfl,hlast⟩ := exists_last_records m.workerCount pre hmany
  have hinitial : CanReach m (.reading (first ++ (last ++ .error err :: post)) 1) (fun _ => .waiting [] 0) ⟨[],false,[],false,0,[]⟩ false :=
    ⟨m.initial,.refl,by rw [← List.append_assoc,← hrows]; rfl,rfl,rfl,rfl,rfl⟩
  obtain ⟨rowNum,workers,c,h,hc,hwaits⟩ := hinitial.first hbound ⟨rfl,rfl⟩ fun j => ⟨[],0,rfl,rfl⟩
  obtain ⟨rowNum',c',h',hc'⟩ := (h.cancel hcancellable).leave (k := 0) hbound hc (by rw [hlast,zero_add]) nofun fun j _ => hwaits j
  obtain ⟨s,hs,hreader,hw,rfl,hcancelled,hresult⟩ := h'
  have hclose := ImportStep.close (fun i => by rw [hw]) hc'.errsOpen
  have hread : ReaderStep s.cancelled s.reader .skip (.reporting ("error reading row " ++ toString rowNum' ++ ": " ++ err) post rowNum') :=
    hreader ▸ .unreadable err post rowNum'
  exact ⟨_,(hs.tail (.step hclose)).tail (.step (.reader .skip _ _ hread .skip)),rfl,.inl one_pos⟩

/-- An import goes on in every run exactly when the errors that it can have fit into their channel, and, if the context can
end early, no row that cannot be read comes after a record for every worker. -/
theorem csv_import_never_stuck (m : CsvImport) :
    m.NeverStuck ↔ m.errorBound ≤ m.workerCount ∧ (m.cancellable = true → ¬ m.LateUnreadable) := by
  constructor
  · intro h
    have hbound : m.errorBound ≤ m.workerCount := by
      by_contra hbound
      obtain ⟨t,ht,hstuck⟩ := exists_stuck_of_bound (not_le.mp hbound)
      exact (h t ht).1 hstuck
    refine ⟨hbound,fun hcancellable hlate => ?_⟩
    obtain ⟨t,ht,hsends⟩ := exists_sendsClosed hbound hcancellable hlate
    exact (h t ht).2 hsends
  · rintro ⟨hbound,hlate⟩
    exact neverStuck_of_bound hbound hlate

def singleWorker (rows : List (Except String (List String))) (cancellable : Bool) : CsvImport where
  rows := rows
  texts := ⟨id,id,fun _ => .ofInt 2,fun _ => 0⟩
  columnMap := [("id",0),("amount",1),("date",2),("currency",3),("reference",4),("description",5)]
  source := "bank"
  workerCount := 1
  storeFails := false
  cancellable := cancellable
  workers_pos := one_pos

/-- Two rows that cannot be read: the reader waits for room for the second error, and the worker for a row. One such row
after a record: the worker leaves when the context ends, and the reader reports on the closed channel. -/
theorem single_worker_blocks :
    (∃ s, (singleWorker [.error "bare quote",.error "bare quote"] false).Reaches s ∧ Stuck s) ∧
    ∃ s, (singleWorker [.ok ["1","2","2024-01-01T00:00:00Z","USD","ref","text"],.error "bare quote"] true).Reaches s ∧ SendsClosed s := by
  refine ⟨exists_stuck_of_bound (by decide),exists_sendsClosed (by decide) rfl ?_⟩
  exact ⟨[.ok ["1","2","2024-01-01T00:00:00Z","USD","ref","text"]],"bare quote",[],rfl,le_rfl⟩

end LedgerForge.Files
