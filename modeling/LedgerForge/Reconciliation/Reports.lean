import LedgerForge.Reconciliation.WorkerRuns

/-! # Every input is reported once

With at most one page of groups, or with pages on which every input always finds a group, no call gets stuck and every
input is reported exactly once. In every other case some schedule fails.
-/

namespace LedgerForge.Reconciliation

open List Call Worker Phase

variable {c : Call} {s t : CallState} {w w' : Worker} {x : Transaction}

theorem Call.singleTxns_nodup (c : Call) : c.singleTxns.Nodup := .of_map _ c.distinct

theorem Call.blocks_nodup (c : Call) (n : ℕ) : (c.blocks n).Nodup := by
  induction n with
  | zero => exact nodup_nil
  | succ n ih =>
    rw [blocks_succ]
    refine nodup_append.mpr ⟨ih,c.singleTxns_nodup.map fun _ _ h => (Prod.mk.inj h).2,fun a ha b hb hab => ?_⟩
    obtain ⟨txn,-,rfl⟩ := mem_map.mp hb
    have := lt_of_mem_blocks ha
    rw [hab] at this
    exact lt_irrefl _ this

theorem Call.mem_blocks {n : ℕ} {a : ℕ × Transaction} : a ∈ c.blocks n ↔ a.1 < n ∧ a.2 ∈ c.singleTxns := by
  obtain ⟨k,txn⟩ := a
  simp [blocks]

theorem Call.blocks_mono {m n : ℕ} (h : m ≤ n) : c.blocks m <+: c.blocks n := by
  induction h with
  | refl => exact prefix_rfl
  | step _ ih =>
    rw [blocks_succ]
    exact ih.trans (prefix_append ..)

theorem Sound.assigned_prefix (hsound : Sound c s) : assignments s.workers <+: c.blocks c.pages.length := by
  have hl := hsound.launched
  cases hmain : s.main with
  | fetching k =>
    rw [hmain] at hl
    rw [hl.2]
    exact blocks_mono hl.1
  | launching k p rest =>
    rw [hmain] at hl
    obtain ⟨hpage,started,hall,hassigned⟩ := hl
    refine .trans ?_ (blocks_mono (List.getElem?_eq_some_iff.mp hpage).1)
    rw [hassigned,blocks_succ,hall,map_append]
    exact (prefix_append_right_inj _).mpr (prefix_append ..)
  | checking k =>
    rw [hmain] at hl
    rw [hl.2]
    exact blocks_mono hl.1
  | deferred rest =>
    rw [hmain] at hl
    rw [hl.2.1]
    exact nil_prefix
  | collecting =>
    rw [hmain] at hl
    obtain ⟨n,hn,-,hassigned⟩ := hl
    exact hassigned ▸ blocks_mono hn
  | draining =>
    rw [hmain] at hl
    obtain ⟨n,hn,-,hassigned⟩ := hl
    exact hassigned ▸ blocks_mono hn
  | returned =>
    rw [hmain] at hl
    obtain ⟨n,hn,-,hassigned⟩ := hl
    exact hassigned ▸ blocks_mono hn

theorem Sound.worker_unique (hsound : Sound c s) (hw : w ∈ s.workers) (hw' : w' ∈ s.workers) (hnumber : w.number = w'.number)
    (htxn : w.txn = w'.txn) : w = w' :=
  inj_on_of_nodup_map (hsound.assigned_prefix.sublist.nodup (c.blocks_nodup _)) hw hw' (Prod.ext hnumber htxn)

theorem Sound.txn_mem (hsound : Sound c s) (hw : w ∈ s.workers) : w.txn ∈ c.singleTxns :=
  (mem_blocks.mp (hsound.assigned_prefix.subset (mem_map_of_mem hw))).2

theorem Call.eq_of_id (c : Call) {y : Transaction} (hx : x ∈ c.singleTxns) (hy : y ∈ c.singleTxns)
    (hid : x.transactionID = y.transactionID) : x = y := inj_on_of_nodup_map c.distinct hx hy hid

theorem holds_or_ready (h : w.phase.isDone = false) : w.phase.holds = true ∨ w.phase = .ready := by
  cases hphase : w.phase <;> simp_all [isDone,holds]

theorem exists_worker_step (hw : w ∈ s.workers) (hholds : w.phase.holds = true) (hchan : s.matchChan = [])
    (hreport : w.phase = .reporting → s.unmatchedChan.length < c.capacity) : ∃ t, CallStep c s t := by
  obtain ⟨pre,post,hworkers⟩ := append_of_mem hw
  suffices h : ∃ phase groupMap ch, WorkerStep c (s.holders w.number) w.page w.txn w.phase (s.groupMap w.number)
      s.toChannels phase groupMap ch by
    obtain ⟨phase,groupMap,ch,hstep⟩ := h
    exact ⟨_,.worker pre w post phase groupMap ch hworkers hstep⟩
  cases hphase : w.phase with
  | ready => simp [hphase,holds] at hholds
  | holding => exact ⟨_,_,_,.snapshot _ (.refl _)⟩
  | scanning keys =>
    cases keys with
    | nil => exact ⟨_,_,_,.exhausted⟩
    | cons key keys =>
      by_cases hclaim : c.accepts w.txn w.page key = true ∧ key ∈ s.groupMap w.number
      · exact ⟨_,_,_,.claim key keys hclaim.1 hclaim.2⟩
      · exact ⟨_,_,_,.skip key keys hclaim⟩
  | sending key sent rest =>
    cases rest with
    | nil => exact ⟨_,_,_,.sent key sent⟩
    | cons groupedTxn rest =>
      exact ⟨_,_,_,.send key sent groupedTxn rest (by simpa [hchan] using c.capacity_pos)⟩
  | reporting => exact ⟨_,_,_,.report (hreport hphase)⟩
  | releasing matched => exact ⟨_,_,_,.release matched⟩
  | done matched => simp [hphase,holds] at hholds

/-- The caller always goes on, unless a worker cannot send its input. -/
theorem progress (h : c.Reaches s)
    (hreport : ∀ w ∈ s.workers, w.phase = .reporting → s.unmatchedChan.length < c.capacity) (hmain : s.main ≠ .returned) :
    ∃ t, CallStep c s t := by
  have hsound := Sound.reaches h
  have hacc := Accounted.reaches h
  have hl := hsound.launched
  cases hm : s.main with
  | fetching k =>
    cases hpage : c.pages[k]? with
    | none => exact ⟨_,.front _ (.fetchEnd k hm hpage)⟩
    | some p => exact ⟨_,.fetch k p hm hpage⟩
  | launching k p rest =>
    cases rest with
    | nil => exact ⟨_,.front _ (.launched k p hm)⟩
    | cons txn rest => exact ⟨_,.launch k p txn rest hm⟩
  | checking k => exact ⟨_,.front _ (.check k hm)⟩
  | deferred rest =>
    cases rest with
    | nil => exact ⟨_,.front _ (.deferredEnd hm)⟩
    | cons txn rest =>
      rw [hm] at hl
      obtain ⟨-,hassigned,sent,hall⟩ := hl
      have hnone : s.workers = [] := map_eq_nil_iff.mp hassigned
      have hlength := hacc.unmatched.length_eq
      rw [hacc.early (by simp [hm]) (by simp [hm]),hnone,hm] at hlength
      refine ⟨_,.front _ (.deferredSend txn rest hm ?_)⟩
      simp [deferredIDs,hall] at hlength
      simp [capacity,hall,hlength]
  | collecting =>
    cases hchan : s.matchChan with
    | cons m rest => exact ⟨_,.front _ (.collect m rest hm hchan)⟩
    | nil =>
      by_cases hdone : ∀ w ∈ s.workers, w.phase.isDone = true
      · cases hclosed : s.matchClosed with
        | true => exact ⟨_,.front _ (.collected hm hchan hclosed)⟩
        | false => exact ⟨_,.front _ (.closeMatch (by simp [hm,Main.started]) hclosed hdone)⟩
      by_cases hholder : ∃ w ∈ s.workers, w.phase.holds = true
      · obtain ⟨w,hw,hholds⟩ := hholder
        exact exists_worker_step hw hholds hchan (hreport w hw)
      -- Nobody has a token, so a worker that is not done can take one.
      push Not at hdone hholder
      obtain ⟨w,hw,hnot⟩ := hdone
      have hready : w.phase = .ready :=
        (holds_or_ready (by simpa using hnot)).resolve_left (hholder w hw)
      have hfree : s.holders w.number = 0 :=
        countP_eq_zero.mpr fun w' hw' => by simpa using fun _ => hholder w' hw'
      obtain ⟨pre,post,hworkers⟩ := append_of_mem hw
      refine ⟨_,.worker pre w post .holding (s.groupMap w.number) s.toChannels hworkers ?_⟩
      rw [hready,hfree]
      exact .acquire c.workers_pos
  | draining =>
    cases hchan : s.unmatchedChan with
    | cons id rest => exact ⟨_,.front _ (.drain id rest hm hchan)⟩
    | nil =>
      cases hclosed : s.unmatchedClosed with
      | true => exact ⟨_,.front _ (.drained hm hchan hclosed)⟩
      | false => exact ⟨_,.front _ (.closeUnmatched (hacc.collected (.inl hm)).1 hclosed)⟩
  | returned => exact absurd hm hmain

/-- The other inputs can claim every group of the page that matches the input, each of them one. -/
def Exhaustible (c : Call) (p : GroupPage) (x : Transaction) : Prop :=
  ∃ taker : String → Transaction,
    (∀ key ∈ p.keys, c.accepts x p key = true →
      taker key ∈ c.singleTxns ∧ taker key ≠ x ∧ c.accepts (taker key) p key = true) ∧
    ∀ key ∈ p.keys, ∀ key' ∈ p.keys, c.accepts x p key = true → c.accepts x p key' = true →
      taker key = taker key' → key = key'

/-- A worker that finds nothing lost all its groups to workers of other inputs. -/
theorem Sound.exhaustible (hsound : Sound c s) (hw : w ∈ s.workers) (hclaim : w.phase.claim = none)
    (hnone : NoneLeft c (s.groupMap w.number) w.page w.txn) : Exhaustible c w.page w.txn := by
  have hclaimed := (hsound.left w.number w.page (hsound.numbered w hw) (.inl ⟨w,hw,rfl⟩)).2
  have htaker : ∀ key, key ∈ w.page.keys ∧ c.accepts w.txn w.page key = true →
      ∃ w' ∈ s.workers, w'.number = w.number ∧ w'.phase.claim = some key :=
    fun key hkey => hclaimed key hkey.1 (hnone key hkey.1 hkey.2)
  have : Nonempty Worker := ⟨w⟩
  choose! taker hmem hnumber hphase using htaker
  refine ⟨fun key => (taker key).txn,fun key hkey haccepts => ?_,fun key hkey key' hkey' haccepts haccepts' heq => ?_⟩
  · have hm := hmem key ⟨hkey,haccepts⟩
    have hn := hnumber key ⟨hkey,haccepts⟩
    have hp := hphase key ⟨hkey,haccepts⟩
    have hpage : (taker key).page = w.page := by
      have h := hsound.numbered _ hm
      rw [hn,hsound.numbered w hw] at h
      exact (Option.some.inj h).symm
    refine ⟨hsound.txn_mem hm,fun htxn => ?_,hpage ▸ ((hsound.phases _ hm).claimed hp).2⟩
    rw [hsound.worker_unique hm hw hn htxn,hclaim] at hp
    cases hp
  · have hsame := hsound.worker_unique (hmem key ⟨hkey,haccepts⟩) (hmem key' ⟨hkey',haccepts'⟩)
      ((hnumber key ⟨hkey,haccepts⟩).trans (hnumber key' ⟨hkey',haccepts'⟩).symm) heq
    have hp := hphase key ⟨hkey,haccepts⟩
    rw [hsame,hphase key' ⟨hkey',haccepts'⟩] at hp
    exact (Option.some.inj hp).symm

theorem Sound.page_mem (hsound : Sound c s) (hw : w ∈ s.workers) : w.page ∈ c.pages :=
  mem_of_getElem? (hsound.numbered w hw)

theorem Sound.not_unmatched (hsound : Sound c s) (hgood : ∀ p ∈ c.pages, ∀ x ∈ c.singleTxns, ¬ Exhaustible c p x)
    (hw : w ∈ s.workers) : w.phase ≠ .reporting ∧ w.phase.reported = false := by
  have hok := hsound.phases w hw
  have hnot : w.phase.claim = none → ¬ NoneLeft c (s.groupMap w.number) w.page w.txn := fun hclaim hnone =>
    hgood _ (hsound.page_mem hw) _ (hsound.txn_mem hw) (hsound.exhaustible hw hclaim hnone)
  cases hphase : w.phase with
  | reporting =>
    rw [hphase] at hok hnot
    exact absurd hok (hnot rfl)
  | releasing matched =>
    cases matched with
    | none =>
      rw [hphase] at hok hnot
      exact absurd hok (hnot rfl)
    | some key => exact ⟨nofun,rfl⟩
  | done matched =>
    cases matched with
    | none =>
      rw [hphase] at hok hnot
      exact absurd hok (hnot rfl)
    | some key => exact ⟨nofun,rfl⟩
  | ready => exact ⟨nofun,rfl⟩
  | holding => exact ⟨nofun,rfl⟩
  | scanning keys => exact ⟨nofun,rfl⟩
  | sending key sent rest => exact ⟨nofun,rfl⟩

theorem Sound.length_workers_le (hsound : Sound c s) (hpages : c.pages.length ≤ 1) : s.workers.length ≤ c.capacity := by
  have hlength := (hsound.assigned_prefix.trans (blocks_mono hpages)).length_le
  simpa [assignments,blocks,capacity] using hlength

theorem room_of_single_page (h : c.Reaches s) (hpages : c.pages.length ≤ 1) (hw : w ∈ s.workers)
    (hphase : w.phase = .reporting) : s.unmatchedChan.length < c.capacity := by
  have hsound := Sound.reaches h
  have hacc := Accounted.reaches h
  have hopen : s.matchClosed ≠ true := fun hclosed => by
    simpa [hphase,isDone] using (hacc.closed hclosed).2 w hw
  have hearly := hacc.early (fun hm => hopen (hacc.collected (.inl hm)).1) (fun hm => hopen (hacc.collected (.inr hm)).1)
  have hnonempty : c.pages ≠ [] := ne_nil_of_mem (hsound.page_mem hw)
  have hdeferred : deferredIDs c s.main = [] := by
    have hl := hsound.launched
    cases hm : s.main with
    | deferred rest =>
      rw [hm] at hl
      exact absurd hl.1 hnonempty
    | fetching k => rfl
    | launching k p rest => rfl
    | checking k => rfl
    | collecting => simp [deferredIDs,hnonempty]
    | draining => simp [deferredIDs,hnonempty]
    | returned => simp [deferredIDs,hnonempty]
  have hlength := hacc.unmatched.length_eq
  rw [hearly,hdeferred,nil_append,append_nil] at hlength
  have hless : (s.workers.filterMap reportedID).length < s.workers.length :=
    length_filterMap_lt_length_iff_exists.mpr ⟨w,hw,by simp [reportedID,hphase,reported]⟩
  have := hsound.length_workers_le hpages
  omega

def Matched (c : Call) (s : CallState) (x : Transaction) : Prop := ∃ m ∈ s.results, c.inputID m = x.transactionID

def ReportedOnce (c : Call) (s : CallState) (x : Transaction) : Prop :=
  (Matched c s x ∧ x.transactionID ∉ s.unmatched) ∨ (¬ Matched c s x ∧ s.unmatched.count x.transactionID = 1)

theorem Accounted.returned (hacc : Accounted c s) (hmain : s.main = .returned) :
    (∀ w ∈ s.workers, w.phase.isDone = true) ∧ (∀ m, m ∈ s.results ↔ ∃ w ∈ s.workers, m ∈ w.emitted c) ∧
      s.unmatched.Perm (s.workers.filterMap reportedID ++ deferredIDs c .returned) := by
  obtain ⟨hclosed,hchan⟩ := hacc.collected (.inr hmain)
  have hresults := hacc.results
  have hunmatched := hacc.unmatched
  rw [hchan,append_nil] at hresults
  rw [hacc.drained hmain,append_nil,hmain] at hunmatched
  exact ⟨(hacc.closed hclosed).2,hresults,hunmatched⟩

theorem exists_done (h : w.phase.isDone = true) : ∃ matched, w.phase = .done matched := by
  cases hphase : w.phase <;> simp_all [isDone]

theorem matched_iff (hsound : Sound c s) (hacc : Accounted c s) (hmain : s.main = .returned) (hx : x ∈ c.singleTxns) :
    Matched c s x ↔ ∃ w ∈ s.workers, w.txn = x ∧ ∃ key, w.phase = .done (some key) := by
  obtain ⟨hdone,hresults,-⟩ := hacc.returned hmain
  constructor
  · rintro ⟨m,hm,hid⟩
    obtain ⟨w,hw,hemitted⟩ := (hresults m).mp hm
    obtain ⟨matched,hphase⟩ := exists_done (hdone w hw)
    cases matched with
    | none => simp [emitted,hphase] at hemitted
    | some key =>
      simp only [emitted,hphase,mem_map] at hemitted
      obtain ⟨groupedTxn,-,rfl⟩ := hemitted
      rw [inputID_message] at hid
      exact ⟨w,hw,c.eq_of_id (hsound.txn_mem hw) hx hid,key,hphase⟩
  · rintro ⟨w,hw,rfl,key,hphase⟩
    have hclaimed : Claimed c w.page w.txn key := (hsound.phases w hw).claimed (by rw [hphase]; rfl)
    obtain ⟨groupedTxn,hmember⟩ := exists_mem_of_ne_nil _ (GroupPage.group_ne_nil hclaimed.1)
    refine ⟨c.message w.txn groupedTxn,(hresults _).mpr ⟨w,hw,?_⟩,inputID_message ..⟩
    simp only [emitted,hphase]
    exact mem_map_of_mem hmember

theorem count_unmatched (hsound : Sound c s) (hacc : Accounted c s) (hmain : s.main = .returned) (hpages : c.pages ≠ [])
    (hx : x ∈ c.singleTxns) :
    s.unmatched.count x.transactionID = s.workers.countP fun w => w.phase.reported && w.txn = x := by
  obtain ⟨-,-,hunmatched⟩ := hacc.returned hmain
  have hdeferred : deferredIDs c .returned = [] := by simp [deferredIDs,hpages]
  rw [hdeferred,append_nil] at hunmatched
  rw [hunmatched.count_eq,List.count,countP_filterMap]
  refine countP_congr fun w hw => ?_
  by_cases hreported : w.phase.reported = true
  · have hiff : w.txn.transactionID = x.transactionID ↔ w.txn = x := ⟨c.eq_of_id (hsound.txn_mem hw) hx,fun h => by rw [h]⟩
    simp [reportedID,hreported,hiff]
  · simp [reportedID,hreported]

theorem exists_worker_of_assigned {k : ℕ} (h : (k,x) ∈ assignments s.workers) : ∃ w ∈ s.workers, w.number = k ∧ w.txn = x := by
  obtain ⟨w,hw,heq⟩ := mem_map.mp h
  exact ⟨w,hw,(Prod.mk.inj heq).1,(Prod.mk.inj heq).2⟩

theorem Sound.exists_first_worker (hsound : Sound c s) (hmain : s.main = .returned) (hpages : c.pages ≠ [])
    (hx : x ∈ c.singleTxns) : ∃ w ∈ s.workers, w.txn = x := by
  have hl := hsound.launched
  rw [hmain] at hl
  obtain ⟨n,-,hzero,hassigned⟩ := hl
  have hmem : (0,x) ∈ assignments s.workers := by
    rw [hassigned]
    exact mem_blocks.mpr ⟨Nat.pos_of_ne_zero fun h => hpages (hzero h),hx⟩
  obtain ⟨w,hw,-,hx⟩ := exists_worker_of_assigned hmem
  exact ⟨w,hw,hx⟩

theorem reportedOnce_of_single_page (hsound : Sound c s) (hacc : Accounted c s) (hmain : s.main = .returned)
    (hpages : c.pages.length ≤ 1) (hx : x ∈ c.singleTxns) : ReportedOnce c s x := by
  by_cases hnil : c.pages = []
  · have hnone : s.workers = [] :=
      eq_nil_iff_forall_not_mem.mpr fun w hw => by simpa [hnil] using hsound.page_mem hw
    refine .inr ⟨?_,?_⟩
    · rw [matched_iff hsound hacc hmain hx,hnone]
      simp
    · rw [((hacc.returned hmain).2.2).count_eq,hnone]
      simpa [deferredIDs,hnil] using count_eq_one_of_mem c.distinct (mem_map_of_mem hx)
  · obtain ⟨w,hw,rfl⟩ := hsound.exists_first_worker hmain hnil hx
    have hfirst : ∀ v ∈ s.workers, v.number = 0 := by
      intro v hv
      have := (List.getElem?_eq_some_iff.mp (hsound.numbered v hv)).1
      omega
    have honly : ∀ v ∈ s.workers, v.txn = w.txn → v = w := fun v hv htxn =>
      hsound.worker_unique hv hw ((hfirst v hv).trans (hfirst w hw).symm) htxn
    obtain ⟨matched,hphase⟩ := exists_done ((hacc.returned hmain).1 w hw)
    have hcount := count_unmatched hsound hacc hmain hnil hx
    cases matched with
    | some key =>
      refine .inl ⟨(matched_iff hsound hacc hmain hx).mpr ⟨w,hw,rfl,key,hphase⟩,count_eq_zero.mp (hcount.trans ?_)⟩
      refine countP_eq_zero.mpr fun v hv hreported => ?_
      simp only [Bool.and_eq_true,decide_eq_true_eq] at hreported
      rw [honly v hv hreported.2,hphase] at hreported
      cases hreported.1
    | none =>
      refine .inr ⟨fun hmatched => ?_,hcount.trans ?_⟩
      · obtain ⟨v,hv,htxn,key,hdone⟩ := (matched_iff hsound hacc hmain hx).mp hmatched
        rw [honly v hv htxn,hphase] at hdone
        cases hdone
      · -- The worker is the only one of its input, so it is counted once.
        obtain ⟨pre,post,hworkers⟩ := append_of_mem hw
        have hnodup : (pre ++ w :: post).Nodup :=
          hworkers ▸ .of_map _ (hsound.assigned_prefix.sublist.nodup (c.blocks_nodup _))
        have hothers : ∀ v ∈ pre ++ post, (v.phase.reported && decide (v.txn = w.txn)) ≠ true := by
          intro v hv hreported
          simp only [Bool.and_eq_true,decide_eq_true_eq] at hreported
          have hmem : v ∈ s.workers := by
            rw [hworkers]
            exact (sublist_cons_self w post).append_left pre |>.subset hv
          rw [honly v hmem hreported.2] at hv
          exact (nodup_middle.mp hnodup).notMem hv
        have hpre : pre.countP (fun v => v.phase.reported && decide (v.txn = w.txn)) = 0 :=
          countP_eq_zero.mpr fun v hv => hothers v (mem_append_left _ hv)
        have hpost : post.countP (fun v => v.phase.reported && decide (v.txn = w.txn)) = 0 :=
          countP_eq_zero.mpr fun v hv => hothers v (mem_append_right _ hv)
        rw [hworkers,countP_append,hpre,countP_cons,hpost]
        simp [hphase,reported]

theorem reportedOnce_of_found (hsound : Sound c s) (hacc : Accounted c s) (hmain : s.main = .returned)
    (hpages : c.pages ≠ []) (hgood : ∀ p ∈ c.pages, ∀ x ∈ c.singleTxns, ¬ Exhaustible c p x) (hx : x ∈ c.singleTxns) :
    ReportedOnce c s x := by
  obtain ⟨w,hw,rfl⟩ := hsound.exists_first_worker hmain hpages hx
  obtain ⟨matched,hphase⟩ := exists_done ((hacc.returned hmain).1 w hw)
  cases matched with
  | none =>
    have := (hsound.not_unmatched hgood hw).2
    rw [hphase] at this
    cases this
  | some key =>
    refine .inl ⟨(matched_iff hsound hacc hmain hx).mpr ⟨w,hw,rfl,key,hphase⟩,count_eq_zero.mp ?_⟩
    rw [count_unmatched hsound hacc hmain hpages hx]
    refine countP_eq_zero.mpr fun v hv hreported => ?_
    simp [(hsound.not_unmatched hgood hv).2] at hreported

end LedgerForge.Reconciliation
