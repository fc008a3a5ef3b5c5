import LedgerForge.Reconciliation.Workers

/-! # What holds while workers run

Which workers were launched, what each of them has claimed, and that every value in a channel or a result comes from one
of them.
-/

namespace LedgerForge.Reconciliation

open List Function Worker

variable {c : Call} {s t : CallState} {p : GroupPage} {txn : Transaction} {phase phase' : Phase} {left left' : List String}
  {ch ch' : Channels} {holders : ℕ}

def NoneLeft (c : Call) (left : List String) (p : GroupPage) (txn : Transaction) : Prop :=
  ∀ key ∈ p.keys, c.accepts txn p key = true → key ∉ left

def Claimed (c : Call) (p : GroupPage) (txn : Transaction) (key : String) : Prop :=
  key ∈ p.keys ∧ c.accepts txn p key = true

def PhaseOk (c : Call) (left : List String) (p : GroupPage) (txn : Transaction) : Phase → Prop
  | .ready => True
  | .holding => True
  | .scanning keys => keys.length ≤ p.keys.length ∧ keys ⊆ p.keys ∧
      ∀ key ∈ p.keys, c.accepts txn p key = true → key ∈ left → key ∈ keys
  | .sending key sent rest => sent ++ rest = p.group key ∧ Claimed c p txn key
  | .reporting => NoneLeft c left p txn
  | .releasing none => NoneLeft c left p txn
  | .releasing (some key) => Claimed c p txn key
  | .done none => NoneLeft c left p txn
  | .done (some key) => Claimed c p txn key

theorem NoneLeft.mono (h : NoneLeft c left p txn) (hsub : left' ⊆ left) : NoneLeft c left' p txn :=
  fun key hkey haccepts hleft => h key hkey haccepts (hsub hleft)

theorem PhaseOk.mono (h : PhaseOk c left p txn phase) (hsub : left' ⊆ left) : PhaseOk c left' p txn phase := by
  cases phase with
  | scanning keys => exact ⟨h.1,h.2.1,fun key hkey haccepts hleft => h.2.2 key hkey haccepts (hsub hleft)⟩
  | reporting => exact NoneLeft.mono h hsub
  | releasing matched =>
    cases matched with
    | none => exact NoneLeft.mono h hsub
    | some key => exact h
  | done matched =>
    cases matched with
    | none => exact NoneLeft.mono h hsub
    | some key => exact h
  | ready => exact h
  | holding => exact h
  | sending key sent rest => exact h

theorem PhaseOk.claimed (h : PhaseOk c left p txn phase) {key : String} (hclaim : phase.claim = some key) :
    Claimed c p txn key := by
  cases phase with
  | sending key' sent rest =>
    cases hclaim
    exact h.2
  | releasing matched =>
    cases hclaim
    exact h
  | done matched =>
    cases hclaim
    exact h
  | ready => cases hclaim
  | holding => cases hclaim
  | scanning keys => cases hclaim
  | reporting => cases hclaim

namespace WorkerStep

variable (h : WorkerStep c holders p txn phase left ch phase' left' ch')
include h

theorem sublist : left'.Sublist left := by
  cases h with
  | claim key keys haccepts hleft => exact erase_sublist
  | acquire _ => exact .refl _
  | snapshot _ _ => exact .refl _
  | skip _ _ _ => exact .refl _
  | exhausted => exact .refl _
  | send _ _ _ _ _ => exact .refl _
  | sent _ _ => exact .refl _
  | report _ => exact .refl _
  | release _ => exact .refl _

theorem phaseOk (hleft : left ⊆ p.keys) (hlength : left.length ≤ p.keys.length) (hok : PhaseOk c left p txn phase) :
    PhaseOk c left' p txn phase' := by
  cases h with
  | acquire _ => trivial
  | snapshot keys hkeys =>
    exact ⟨hkeys.length_eq ▸ hlength,fun key hkey => hleft (hkeys.subset hkey),fun key _ _ hkey => hkeys.mem_iff.mpr hkey⟩
  | skip key keys hskip =>
    obtain ⟨hlen,hsub,hfound⟩ := hok
    refine ⟨by simp at hlen; omega,fun key' hkey => hsub (mem_cons_of_mem _ hkey),fun key' hkey haccepts hmem => ?_⟩
    rcases mem_cons.mp (hfound key' hkey haccepts hmem) with rfl | hkeys
    · exact absurd ⟨haccepts,hmem⟩ hskip
    · exact hkeys
  | claim key keys haccepts hmem => exact ⟨rfl,hleft hmem,haccepts⟩
  | exhausted => exact fun key hkey haccepts hmem => absurd (hok.2.2 key hkey haccepts hmem) not_mem_nil
  | send key sent groupedTxn rest _ => exact ⟨by simpa using hok.1,hok.2⟩
  | sent key sent => exact hok.2
  | report _ => exact hok
  | release matched => cases matched <;> exact hok

theorem claim_kept {key : String} (hclaim : phase.claim = some key) : phase'.claim = some key := by
  cases h with
  | send _ _ _ _ _ => exact hclaim
  | sent _ _ => exact hclaim
  | release _ => exact hclaim
  | acquire _ => cases hclaim
  | snapshot _ _ => cases hclaim
  | skip _ _ _ => cases hclaim
  | claim _ _ _ _ => cases hclaim
  | exhausted => cases hclaim
  | report _ => cases hclaim

theorem claim_of_erased {key : String} (hmem : key ∈ left) (hgone : key ∉ left') : phase'.claim = some key := by
  cases h with
  | claim key' keys haccepts hleft =>
    by_cases hkey : key = key'
    · rw [hkey]
      rfl
    · exact absurd ((mem_erase_of_ne hkey).mpr hmem) hgone
  | acquire _ => exact absurd hmem hgone
  | snapshot _ _ => exact absurd hmem hgone
  | skip _ _ _ => exact absurd hmem hgone
  | exhausted => exact absurd hmem hgone
  | send _ _ _ _ _ => exact absurd hmem hgone
  | sent _ _ => exact absurd hmem hgone
  | report _ => exact absurd hmem hgone
  | release _ => exact absurd hmem hgone

theorem not_done : phase.isDone = false := by
  cases h <;> rfl

end WorkerStep

/-- The workers of the first pages, in the order in which they are launched. -/
def Call.blocks (c : Call) (n : ℕ) : List (ℕ × Transaction) :=
  (List.range n).flatMap fun k => c.singleTxns.map fun txn => (k,txn)

def assignments (workers : List Worker) : List (ℕ × Transaction) := workers.map fun w => (w.number,w.txn)

def Launched (c : Call) (assigned : List (ℕ × Transaction)) : Main → Prop
  | .fetching k => k ≤ c.pages.length ∧ assigned = c.blocks k
  | .launching k p rest => c.pages[k]? = some p ∧ ∃ started, c.singleTxns = started ++ rest ∧
      assigned = c.blocks k ++ started.map fun txn => (k,txn)
  | .checking k => k < c.pages.length ∧ assigned = c.blocks (k+1)
  | .deferred rest => c.pages = [] ∧ assigned = [] ∧ ∃ sent, c.singleTxns = sent ++ rest
  | _ => ∃ n ≤ c.pages.length, (n = 0 → c.pages = []) ∧ assigned = c.blocks n

def CallState.Visits (s : CallState) (k : ℕ) : Prop :=
  (∃ w ∈ s.workers, w.number = k) ∨ ∃ p rest, s.main = .launching k p rest

structure Sound (c : Call) (s : CallState) : Prop where
  numbered : ∀ w ∈ s.workers, c.pages[w.number]? = some w.page
  phases : ∀ w ∈ s.workers, PhaseOk c (s.groupMap w.number) w.page w.txn w.phase
  left : ∀ k p, c.pages[k]? = some p → s.Visits k → (s.groupMap k).Sublist p.keys ∧
    ∀ key ∈ p.keys, key ∉ s.groupMap k → ∃ w ∈ s.workers, w.number = k ∧ w.phase.claim = some key
  launched : Launched c (assignments s.workers) s.main

theorem Call.blocks_succ (c : Call) (n : ℕ) : c.blocks (n+1) = c.blocks n ++ c.singleTxns.map fun txn => (n,txn) := by
  simp [blocks,range_succ]

theorem Call.lt_of_mem_blocks {n : ℕ} {a : ℕ × Transaction} (h : a ∈ c.blocks n) : a.1 < n := by
  simp only [blocks,mem_flatMap,mem_range,mem_map] at h
  obtain ⟨k,hk,txn,-,rfl⟩ := h
  exact hk

variable {f : Front}

theorem launched_front (hsound : Sound c s) (hstep : FrontStep c s.workers s.groupMap s.toFront f) :
    Launched c (assignments s.workers) f.main := by
  have hl := hsound.launched
  cases hstep with
  | fetchEnd k hmain hend =>
    rw [show s.main = .fetching k from hmain] at hl
    obtain ⟨hk,hassigned⟩ := hl
    have hlast : c.pages.length ≤ k := List.getElem?_eq_none_iff.mp hend
    split
    · next hzero =>
      subst hzero
      exact ⟨length_eq_zero_iff.mp (by omega),hassigned,[],rfl⟩
    · next hpos => exact ⟨k,hk,fun h => absurd h hpos,hassigned⟩
  | launched k p hmain =>
    rw [show s.main = .launching k p [] from hmain] at hl
    obtain ⟨hpage,started,hall,hassigned⟩ := hl
    rw [append_nil] at hall
    exact ⟨(List.getElem?_eq_some_iff.mp hpage).1,by rw [hassigned,Call.blocks_succ,hall]⟩
  | check k hmain =>
    rw [show s.main = .checking k from hmain] at hl
    split
    · exact ⟨k+1,hl.1,fun h => absurd h (Nat.succ_ne_zero k),hl.2⟩
    · exact ⟨hl.1,hl.2⟩
  | deferredSend txn rest hmain _ =>
    rw [show s.main = .deferred (txn :: rest) from hmain] at hl
    obtain ⟨hpages,hassigned,sent,hall⟩ := hl
    exact ⟨hpages,hassigned,sent ++ [txn],by simpa using hall⟩
  | deferredEnd hmain =>
    rw [show s.main = .deferred [] from hmain] at hl
    exact ⟨0,Nat.zero_le _,fun _ => hl.1,hl.2.1⟩
  | collect _ _ _ _ => exact hl
  | collected hmain _ _ =>
    rw [show s.main = .collecting from hmain] at hl
    exact hl
  | drain _ _ _ _ => exact hl
  | drained hmain _ _ =>
    rw [show s.main = .draining from hmain] at hl
    exact hl
  | closeMatch _ _ _ => exact hl
  | closeUnmatched _ _ => exact hl

theorem FrontStep.launching {workers : List Worker} {groupMap : ℕ → List String} {f' : Front}
    (h : FrontStep c workers groupMap f f') {k : ℕ} {rest : List Transaction} (hmain : f'.main = .launching k p rest) :
    f.main = .launching k p rest := by
  cases h with
  | fetchEnd k' hmain' hend =>
    split at hmain <;> cases hmain
  | launched _ _ _ => cases hmain
  | check k' hmain' =>
    split at hmain <;> cases hmain
  | deferredSend _ _ _ _ => cases hmain
  | deferredEnd _ => cases hmain
  | collect _ _ _ _ => exact hmain
  | collected _ _ _ => cases hmain
  | drain _ _ _ _ => exact hmain
  | drained _ _ _ => cases hmain
  | closeMatch _ _ _ => exact hmain
  | closeUnmatched _ _ => exact hmain

theorem Sound.initial (c : Call) : Sound c .initial :=
  ⟨nofun,nofun,fun _ _ _ hvisits => by rcases hvisits with ⟨w,hw,-⟩ | ⟨p,rest,hmain⟩ <;> [cases hw; cases hmain],
    Nat.zero_le _,rfl⟩

theorem Sound.step (hsound : Sound c s) (hstep : CallStep c s t) : Sound c t := by
  cases hstep with
  | front f hf =>
    refine ⟨hsound.numbered,hsound.phases,fun k p hpage hvisits => hsound.left k p hpage ?_,launched_front (s := s) hsound hf⟩
    rcases hvisits with hw | ⟨p',rest,hmain⟩
    · exact .inl hw
    · exact .inr ⟨p',rest,hf.launching hmain⟩
  | fetch k p hmain hpage =>
    have hl := hsound.launched
    rw [hmain] at hl
    have hnumber : ∀ w ∈ s.workers, w.number ≠ k := by
      intro w hw hk
      have hmem : (w.number,w.txn) ∈ c.blocks k := hl.2 ▸ mem_map_of_mem hw
      exact absurd (Call.lt_of_mem_blocks hmem) (by simp [hk])
    refine ⟨hsound.numbered,fun w hw => ?_,fun k' p' hpage' hvisits => ?_,hpage,[],rfl,by simpa using hl.2⟩
    · dsimp only
      rw [update_of_ne (hnumber w hw)]
      exact hsound.phases w hw
    · dsimp only
      by_cases hk : k' = k
      · subst hk
        rw [update_self,Option.some.inj (hpage'.symm.trans hpage)]
        exact ⟨.refl _,fun key hkey hgone => absurd hkey hgone⟩
      rw [update_of_ne hk]
      refine hsound.left k' p' hpage' ?_
      rcases hvisits with hw | ⟨_,_,hlaunching⟩
      · exact .inl hw
      · cases hlaunching
        exact absurd rfl hk
  | launch k p txn rest hmain =>
    have hl := hsound.launched
    rw [hmain] at hl
    obtain ⟨hpage,started,hall,hassigned⟩ := hl
    refine ⟨fun w hw => ?_,fun w hw => ?_,fun k' p' hpage' hvisits => ?_,hpage,started ++ [txn],by simpa using hall,?_⟩
    · rcases mem_append.mp hw with hw | hw
      · exact hsound.numbered w hw
      · rw [mem_singleton.mp hw]
        exact hpage
    · rcases mem_append.mp hw with hw | hw
      · exact hsound.phases w hw
      · rw [mem_singleton.mp hw]
        trivial
    · have hopen : s.Visits k' := by
        rcases hvisits with ⟨w,hw,hk⟩ | ⟨_,_,hlaunching⟩
        · rcases mem_append.mp hw with hw | hw
          · exact .inl ⟨w,hw,hk⟩
          · rw [mem_singleton.mp hw] at hk
            exact .inr ⟨p,txn :: rest,hk ▸ hmain⟩
        · cases hlaunching
          exact .inr ⟨p,txn :: rest,hmain⟩
      obtain ⟨hsub,hclaimed⟩ := hsound.left k' p' hpage' hopen
      refine ⟨hsub,fun key hkey hgone => ?_⟩
      obtain ⟨w,hw,hclaim⟩ := hclaimed key hkey hgone
      exact ⟨w,mem_append_left _ hw,hclaim⟩
    · rw [assignments,map_append,← assignments,hassigned]
      simp
  | worker pre w post phase groupMap ch hworkers hw =>
    have hmem : w ∈ s.workers := hworkers ▸ mem_append_right _ mem_cons_self
    obtain ⟨hsub,hclaimed⟩ := hsound.left w.number w.page (hsound.numbered w hmem) (.inl ⟨w,hmem,rfl⟩)
    have hothers : ∀ w' ∈ pre ++ { w with phase := phase } :: post, w' = { w with phase := phase } ∨ w' ∈ s.workers := by
      intro w' hw'
      rw [hworkers]
      simp only [mem_append,mem_cons] at hw' ⊢
      tauto
    have hshrink : ∀ k, update s.groupMap w.number groupMap k ⊆ s.groupMap k := by
      intro k
      by_cases hk : k = w.number
      · subst hk
        rw [update_self]
        exact hw.sublist.subset
      · rw [update_of_ne hk]
        exact List.Subset.refl _
    refine ⟨fun w' hw' => ?_,fun w' hw' => ?_,fun k p hpage hvisits => ?_,?_⟩
    · rcases hothers w' hw' with rfl | hold
      · exact hsound.numbered w hmem
      · exact hsound.numbered w' hold
    · rcases hothers w' hw' with rfl | hold
      · dsimp only
        rw [update_self]
        exact hw.phaseOk hsub.subset hsub.length_le (hsound.phases w hmem)
      · exact (hsound.phases w' hold).mono (hshrink _)
    · have hopen : s.Visits k := by
        rcases hvisits with ⟨w',hw',hk⟩ | hlaunching
        · rcases hothers w' hw' with rfl | hold
          · exact .inl ⟨w,hmem,hk⟩
          · exact .inl ⟨w',hold,hk⟩
        · exact .inr hlaunching
      obtain ⟨hsub',hclaimed'⟩ := hsound.left k p hpage hopen
      have hkept : ∀ w' ∈ s.workers, ∀ key, w'.phase.claim = some key →
          ∃ w'' ∈ pre ++ { w with phase := phase } :: post, w''.number = w'.number ∧ w''.phase.claim = some key := by
        intro w' hw' key hclaim
        rw [hworkers] at hw'
        rcases mem_append.mp hw' with hpre | hcons
        · exact ⟨w',mem_append_left _ hpre,rfl,hclaim⟩
        rcases mem_cons.mp hcons with rfl | hpost
        · exact ⟨_,mem_append_right _ mem_cons_self,rfl,hw.claim_kept hclaim⟩
        · exact ⟨w',mem_append_right _ (mem_cons_of_mem _ hpost),rfl,hclaim⟩
      refine ⟨?_,fun key hkey hgone => ?_⟩
      · dsimp only
        by_cases hk : k = w.number
        · subst hk
          rw [update_self]
          exact hw.sublist.trans hsub'
        · rwa [update_of_ne hk]
      · dsimp only at hgone
        by_cases hold : key ∈ s.groupMap k
        · have hk : k = w.number := by
            by_contra hk
            rw [update_of_ne hk] at hgone
            exact hgone hold
          subst hk
          rw [update_self] at hgone
          exact ⟨_,mem_append_right _ mem_cons_self,rfl,hw.claim_of_erased hold hgone⟩
        · obtain ⟨w',hw',rfl,hclaim⟩ := hclaimed' key hkey hold
          exact hkept w' hw' key hclaim
    · have hassigned : assignments (pre ++ { w with phase := phase } :: post) = assignments s.workers := by
        simp [assignments,hworkers]
      rw [hassigned]
      exact hsound.launched

theorem Sound.reaches (h : c.Reaches s) : Sound c s :=
  Transitions.invariant (fun _ _ hsound hstep => hsound.step hstep) h (Sound.initial c)

def Worker.emitted (c : Call) (w : Worker) : List Match :=
  match w.phase with
  | .sending _ sent _ => sent.map (c.message w.txn)
  | .releasing (some key) => (w.page.group key).map (c.message w.txn)
  | .done (some key) => (w.page.group key).map (c.message w.txn)
  | _ => []

def Worker.reportedID (w : Worker) : Option String := if w.phase.reported then some w.txn.transactionID else none

def deferredIDs (c : Call) : Main → List String
  | .deferred rest => (c.singleTxns.take (c.singleTxns.length-rest.length)).map Transaction.transactionID
  | .fetching _ => []
  | .launching _ _ _ => []
  | .checking _ => []
  | _ => if c.pages.isEmpty then c.singleTxns.map Transaction.transactionID else []

structure Accounted (c : Call) (s : CallState) : Prop where
  results : ∀ m, m ∈ s.results ++ s.matchChan ↔ ∃ w ∈ s.workers, m ∈ w.emitted c
  unmatched : (s.unmatched ++ s.unmatchedChan).Perm (s.workers.filterMap reportedID ++ deferredIDs c s.main)
  early : s.main ≠ .draining → s.main ≠ .returned → s.unmatched = []
  closed : s.matchClosed = true → s.main.started = true ∧ ∀ w ∈ s.workers, w.phase.isDone = true
  closedLast : s.unmatchedClosed = true → s.matchClosed = true
  collected : s.main = .draining ∨ s.main = .returned → s.matchClosed = true ∧ s.matchChan = []
  drained : s.main = .returned → s.unmatchedChan = []

theorem WorkerStep.sends (h : WorkerStep c holders p txn phase left ch phase' left' ch') (hok : PhaseOk c left p txn phase)
    (k : ℕ) : ∃ ms ids, ch'.matchChan = ch.matchChan ++ ms ∧ ch'.unmatchedChan = ch.unmatchedChan ++ ids ∧
      emitted c ⟨k,p,txn,phase'⟩ = emitted c ⟨k,p,txn,phase⟩ ++ ms ∧
      (reportedID ⟨k,p,txn,phase'⟩).toList = (reportedID ⟨k,p,txn,phase⟩).toList ++ ids := by
  cases h with
  | send key sent groupedTxn rest _ => exact ⟨[c.message txn groupedTxn],[],by simp,by simp,by simp [emitted],rfl⟩
  | sent key sent =>
    have hall : sent = p.group key := by simpa using hok.1
    exact ⟨[],[],by simp,by simp,by simp [emitted,hall],rfl⟩
  | report _ => exact ⟨[],[txn.transactionID],by simp,rfl,rfl,rfl⟩
  | release matched => cases matched <;> exact ⟨[],[],by simp,by simp,by simp [emitted],rfl⟩
  | acquire _ => exact ⟨[],[],by simp,by simp,rfl,rfl⟩
  | snapshot _ _ => exact ⟨[],[],by simp,by simp,rfl,rfl⟩
  | skip _ _ _ => exact ⟨[],[],by simp,by simp,rfl,rfl⟩
  | claim _ _ _ _ => exact ⟨[],[],by simp,by simp,rfl,rfl⟩
  | exhausted => exact ⟨[],[],by simp,by simp,rfl,rfl⟩

theorem Accounted.initial (c : Call) : Accounted c .initial :=
  ⟨by simp [CallState.initial],.refl _,fun _ _ => rfl,nofun,nofun,by simp [CallState.initial],by simp [CallState.initial]⟩

theorem Accounted.worker {pre post : List Worker} {w : Worker} {groupMap : List String} (hacc : Accounted c s) (hsound : Sound c s)
    (hworkers : s.workers = pre ++ w :: post)
    (hw : WorkerStep c (s.holders w.number) w.page w.txn w.phase (s.groupMap w.number) s.toChannels phase groupMap ch) :
    Accounted c { s with toChannels := ch, workers := pre ++ { w with phase := phase } :: post,
                         groupMap := update s.groupMap w.number groupMap } := by
  have hmem : w ∈ s.workers := hworkers ▸ mem_append_right _ mem_cons_self
  obtain ⟨ms,ids,hms,hids,hemitted,hreported⟩ := hw.sends (hsound.phases w hmem) w.number
  have hopen : s.matchClosed ≠ true := by
    intro hclosed
    have := (hacc.closed hclosed).2 w hmem
    rw [hw.not_done] at this
    cases this
  refine ⟨fun m => ?_,?_,hacc.early,fun h => absurd h hopen,hacc.closedLast,
    fun h => absurd (hacc.collected h).1 hopen,fun h => absurd (hacc.collected (.inr h)).1 hopen⟩
  · have hold := hacc.results m
    simp only [hworkers,mem_append,mem_cons,or_and_right,exists_or,exists_eq_left] at hold
    simp only [hms,hemitted,mem_append,mem_cons,or_and_right,exists_or,exists_eq_left]
    have hsame : emitted c ⟨w.number,w.page,w.txn,w.phase⟩ = w.emitted c := rfl
    rw [← or_assoc,hold]
    simp only [or_assoc]
    exact or_congr_right (or_congr_right or_comm)
  · have hold := hacc.unmatched
    have hsplit : ∀ v : Worker, (pre ++ v :: post).filterMap reportedID =
        pre.filterMap reportedID ++ (v.reportedID.toList ++ post.filterMap reportedID) := by
      intro v
      rw [filterMap_append,filterMap_cons]
      cases v.reportedID <;> rfl
    rw [hworkers,hsplit] at hold
    rw [hsplit,hids,hreported,← append_assoc]
    refine (hold.append_right ids).trans ?_
    simp only [append_assoc]
    refine List.Perm.append_left _ (List.Perm.append_left _ ?_)
    rw [← append_assoc]
    exact perm_append_comm

theorem Accounted.advance (hacc : Accounted c s) (hmain : s.main.started = false) {main : Main} (hdraining : main ≠ .draining)
    (hreturned : main ≠ .returned) (hids : deferredIDs c main = deferredIDs c s.main) :
    Accounted c { s with main := main } := by
  have hopen : s.matchClosed ≠ true := fun h => by simpa [hmain] using (hacc.closed h).1
  refine ⟨hacc.results,?_,fun _ _ => hacc.early ?_ ?_,fun h => absurd h hopen,hacc.closedLast,?_,fun h => absurd h hreturned⟩
  · rw [hids]
    exact hacc.unmatched
  · intro h
    simp [h,Main.started] at hmain
  · intro h
    simp [h,Main.started] at hmain
  · rintro (h | h)
    · exact absurd h hdraining
    · exact absurd h hreturned

theorem Accounted.front (hacc : Accounted c s) (hsound : Sound c s)
    (hf : FrontStep c s.workers s.groupMap s.toFront f) : Accounted c { s with toFront := f } := by
  have hl := hsound.launched
  cases hf with
  | fetchEnd k hmain hend =>
    rw [hmain] at hl
    refine hacc.advance (by rw [hmain]; rfl) (by split <;> simp) (by split <;> simp) ?_
    rw [hmain]
    split
    · simp [deferredIDs]
    next hpos =>
    have hpages : c.pages ≠ [] := fun hnil => hpos (by simpa [hnil] using hl.1)
    simp [deferredIDs,hpages]
  | launched k p hmain =>
    exact hacc.advance (by rw [hmain]; rfl) (by simp) (by simp) (by rw [hmain]; rfl)
  | check k hmain =>
    rw [hmain] at hl
    refine hacc.advance (by rw [hmain]; rfl) (by split <;> simp) (by split <;> simp) ?_
    rw [hmain]
    split
    · have hpages : c.pages ≠ [] := fun hnil => by simpa [hnil] using hl.1
      simp [deferredIDs,hpages]
    · rfl
  | deferredSend txn rest hmain hroom =>
    rw [hmain] at hl
    obtain ⟨-,-,sent,hall⟩ := hl
    have hopen : s.matchClosed ≠ true := fun h => by simpa [hmain,Main.started] using (hacc.closed h).1
    refine ⟨hacc.results,?_,fun _ _ => hacc.early (by simp [hmain]) (by simp [hmain]),fun h => absurd h hopen,
      hacc.closedLast,by simp,by simp⟩
    have hold := hacc.unmatched
    have hbefore : deferredIDs c (.deferred (txn :: rest)) = sent.map Transaction.transactionID := by
      simp [deferredIDs,hall]
    have hafter : deferredIDs c (.deferred rest) = sent.map Transaction.transactionID ++ [txn.transactionID] := by
      have hlength : sent.length+(rest.length+1)-rest.length = sent.length+1 := by omega
      simp [deferredIDs,hall,hlength,take_append]
    rw [hmain,hbefore] at hold
    rw [hafter,← append_assoc,← append_assoc]
    exact hold.append_right _
  | deferredEnd hmain =>
    rw [hmain] at hl
    exact hacc.advance (by rw [hmain]; rfl) (by simp) (by simp) (by rw [hmain]; simp [deferredIDs,hl.1])
  | collect m rest hmain hchan =>
    refine ⟨fun m' => ?_,hacc.unmatched,hacc.early,hacc.closed,hacc.closedLast,by simp [hmain],by simp [hmain]⟩
    rw [← hacc.results m',hchan]
    simp
  | collected hmain hchan hclosed =>
    refine ⟨hacc.results,?_,by simp,fun h => ⟨rfl,(hacc.closed h).2⟩,hacc.closedLast,fun _ => ⟨hclosed,hchan⟩,by simp⟩
    have hold := hacc.unmatched
    rw [hmain] at hold
    exact hold
  | drain id rest hmain hchan =>
    refine ⟨hacc.results,?_,by simp [hmain],hacc.closed,hacc.closedLast,hacc.collected,by simp [hmain]⟩
    have hold := hacc.unmatched
    rw [hchan] at hold
    simpa using hold
  | drained hmain hchan hclosed =>
    refine ⟨hacc.results,?_,by simp,fun h => ⟨rfl,(hacc.closed h).2⟩,hacc.closedLast,fun _ => hacc.collected (.inl hmain),
      fun _ => hchan⟩
    have hold := hacc.unmatched
    rw [hmain] at hold
    exact hold
  | closeMatch hstarted hopen hdone =>
    exact ⟨hacc.results,hacc.unmatched,hacc.early,fun _ => ⟨hstarted,hdone⟩,fun _ => rfl,
      fun h => ⟨rfl,(hacc.collected h).2⟩,hacc.drained⟩
  | closeUnmatched hclosed hopen =>
    exact ⟨hacc.results,hacc.unmatched,hacc.early,hacc.closed,fun _ => hclosed,hacc.collected,hacc.drained⟩

theorem Accounted.step (hacc : Accounted c s) (hsound : Sound c s) (hstep : CallStep c s t) : Accounted c t := by
  cases hstep with
  | front f hf => exact hacc.front hsound hf
  | fetch k p hmain hpage =>
    have hadvanced : Accounted c { s with main := .launching k p c.singleTxns } :=
      hacc.advance (by rw [hmain]; rfl) (by simp) (by simp) (by rw [hmain]; rfl)
    exact ⟨hadvanced.results,hadvanced.unmatched,hadvanced.early,hadvanced.closed,hadvanced.closedLast,hadvanced.collected,
      hadvanced.drained⟩
  | launch k p txn rest hmain =>
    have hadvanced : Accounted c { s with main := .launching k p rest } :=
      hacc.advance (by rw [hmain]; rfl) (by simp) (by simp) (by rw [hmain]; rfl)
    have hopen : s.matchClosed ≠ true := fun h => by simpa [hmain,Main.started] using (hacc.closed h).1
    refine ⟨fun m => ?_,?_,hadvanced.early,fun h => absurd h hopen,hadvanced.closedLast,by simp,by simp⟩
    · rw [hadvanced.results m]
      simp [or_and_right,exists_or,emitted]
    · have hnew : reportedID ⟨k,p,txn,.ready⟩ = none := rfl
      rw [filterMap_append,filterMap_cons_none hnew,filterMap_nil,append_nil]
      exact hadvanced.unmatched
  | worker pre w post phase groupMap ch hworkers hw => exact hacc.worker hsound hworkers hw

theorem Accounted.reaches (h : c.Reaches s) : Accounted c s :=
  (Transitions.invariant (fun _ _ (hinv : Sound c _ ∧ Accounted c _) hstep => ⟨hinv.1.step hstep,hinv.2.step hinv.1 hstep⟩) h
    ⟨Sound.initial c,Accounted.initial c⟩).2

end LedgerForge.Reconciliation
