import LedgerForge.Reconciliation.Reports

/-! # Schedules of workers

Every schedule ends. For every choice of claims that the rules allow there is a schedule that makes it.
-/

namespace LedgerForge.Reconciliation

open Relation List Function CallState Sound Channels CallStep ReflTransGen Call

variable {c : Call} {s t : CallState} {w : Worker} {x : Transaction} {p : GroupPage} {txn : Transaction}
  {phase phase' : Phase} {left left' : List String} {ch ch' : Channels} {holders : ℕ}

def GroupPage.size (p : GroupPage) : ℕ := (p.groups.map fun g => g.2.length).sum

theorem GroupPage.length_group_le {key : String} (h : key ∈ p.keys) : (p.group key).length ≤ p.size := by
  obtain ⟨g,hg⟩ := Keyed.exists_find h
  rw [group,hg]
  exact single_le_sum (fun _ _ => Nat.zero_le _) _ (mem_map_of_mem (Keyed.find_mem hg))

/-- How many steps a worker of the page makes at most; a value that it sends is received in another one. -/
def Phase.weight (p : GroupPage) : Phase → ℕ
  | .ready => p.keys.length+2*p.size+7
  | .holding => p.keys.length+2*p.size+6
  | .scanning keys => keys.length+2*p.size+5
  | .sending _ _ rest => 2*rest.length+3
  | .reporting => 4
  | .releasing _ => 1
  | .done _ => 0

/-- The steps for the pages that are not fetched yet. -/
def Call.ahead (c : Call) (k : ℕ) : ℕ :=
  ((c.pages.drop k).map fun p => c.capacity*(Phase.ready.weight p+1)+4).sum

def Main.weight (c : Call) : Main → ℕ
  | .fetching k => c.ahead k+2*c.capacity+6
  | .launching k p rest => rest.length*(Phase.ready.weight p+1)+3+c.ahead (k+1)+2*c.capacity+6
  | .checking k => 1+c.ahead (k+1)+2*c.capacity+6
  | .deferred rest => 2*rest.length+5
  | .collecting => 4
  | .draining => 3
  | .returned => 2

def Channels.size (ch : Channels) : ℕ := ch.matchChan.length+ch.unmatchedChan.length

def CallState.weight (c : Call) (s : CallState) : ℕ :=
  s.main.weight c+(s.workers.map fun w => w.phase.weight w.page).sum+s.toChannels.size+
    (if s.matchClosed then 0 else 1)+(if s.unmatchedClosed then 0 else 1)

theorem WorkerStep.weight_lt (h : WorkerStep c holders p txn phase left ch phase' left' ch')
    (hlength : left.length ≤ p.keys.length) (hsub : left ⊆ p.keys) :
    phase'.weight p+ch'.size < phase.weight p+ch.size := by
  cases h with
  | acquire _ => simp [Phase.weight]
  | snapshot keys hkeys =>
    have := hkeys.length_eq
    simp only [Phase.weight]
    omega
  | skip key keys _ => simp [Phase.weight]
  | claim key keys _ hleft =>
    have := GroupPage.length_group_le (hsub hleft)
    simp only [Phase.weight,length_cons]
    omega
  | exhausted =>
    simp only [Phase.weight,length_nil]
    omega
  | send key sent groupedTxn rest _ =>
    simp only [Phase.weight,size,length_append,length_cons,length_nil]
    omega
  | sent key sent => simp [Phase.weight]
  | report _ =>
    simp only [Phase.weight,size,length_append,length_cons,length_nil]
    omega
  | release matched => simp [Phase.weight]

theorem FrontStep.weight_lt {f : Front} (h : FrontStep c s.workers s.groupMap s.toFront f) :
    weight c { s with toFront := f } < s.weight c := by
  cases h with
  | fetchEnd k hmain hend =>
    simp only [weight,hmain]
    split <;> simp only [Main.weight,capacity] <;> omega
  | launched k p hmain =>
    simp only [weight,hmain,Main.weight,length_nil]
    omega
  | check k hmain =>
    simp only [weight,hmain]
    split <;> simp only [Main.weight] <;> omega
  | deferredSend txn rest hmain _ =>
    simp only [weight,hmain,Main.weight,size,length_append,length_cons,length_nil]
    omega
  | deferredEnd hmain =>
    simp only [weight,hmain,Main.weight,length_nil]
    omega
  | collect m rest hmain hchan =>
    simp only [weight,size,hchan,length_cons]
    omega
  | collected hmain _ _ =>
    simp only [weight,hmain,Main.weight]
    omega
  | drain id rest hmain hchan =>
    simp only [weight,size,hchan,length_cons]
    omega
  | drained hmain _ _ =>
    simp only [weight,hmain,Main.weight]
    omega
  | closeMatch _ hopen _ =>
    simp [weight,hopen]
  | closeUnmatched _ hopen =>
    simp [weight,hopen]

theorem CallStep.weight_lt (hsound : Sound c s) (h : CallStep c s t) : t.weight c < s.weight c := by
  cases h with
  | front f hf => exact hf.weight_lt
  | fetch k p hmain hpage =>
    have hahead : c.ahead k = c.capacity*(Phase.ready.weight p+1)+4+c.ahead (k+1) := by
      obtain ⟨hk,rfl⟩ := List.getElem?_eq_some_iff.mp hpage
      rw [ahead,drop_eq_getElem_cons hk]
      rfl
    simp only [weight,hmain,Main.weight,hahead]
    rw [← capacity]
    omega
  | launch k p txn rest hmain =>
    simp only [weight,hmain,Main.weight,map_append,sum_append,map_cons,map_nil,sum_cons,
      sum_nil,length_cons,Nat.succ_mul]
    omega
  | worker pre w post phase groupMap ch hworkers hw =>
    have hmem : w ∈ s.workers := hworkers ▸ mem_append_right _ mem_cons_self
    have hsub := (hsound.left w.number w.page (hsound.numbered w hmem) (.inl ⟨w,hmem,rfl⟩)).1
    have hless := hw.weight_lt hsub.length_le hsub.subset
    simp only [weight,hworkers,map_append,sum_append,map_cons,sum_cons]
    omega

theorem exists_end (h : c.Reaches s) : ∃ t, ReflTransGen (CallStep c) s t ∧ ∀ u, ¬ CallStep c t u :=
  Transitions.exists_final (weight c) (fun _ _ hsound hstep => hsound.step hstep)
    (fun _ _ hsound hstep => hstep.weight_lt hsound) (reaches h)

section Alone

variable {pre post : List Worker} {key : String}

/-- The state with one worker, the keys of its page and the channels replaced. -/
def CallState.put (s : CallState) (pre : List Worker) (w : Worker) (post : List Worker) (phase : Phase) (left : List String)
    (ch : Channels) : CallState :=
  { s with toChannels := ch, workers := pre ++ { w with phase := phase } :: post,
           groupMap := update s.groupMap w.number left }

theorem CallState.put_self (hworkers : s.workers = pre ++ w :: post) :
    s.put pre w post w.phase (s.groupMap w.number) s.toChannels = s := by
  rw [put,update_eq_self]
  congr
  exact hworkers.symm

theorem step_put (h : WorkerStep c ((s.put pre w post phase left ch).holders w.number) w.page w.txn phase left ch phase' left' ch') :
    CallStep c (s.put pre w post phase left ch) (s.put pre w post phase' left' ch') := by
  have hstep := worker (s := s.put pre w post phase left ch) pre { w with phase := phase } post phase' left' ch' rfl
    (by simpa [put] using h)
  simpa [put] using hstep

/-- The caller collects, nothing is in the channel of matches, and no worker has a token. -/
structure Quiet (s : CallState) : Prop where
  main : s.main = .collecting
  chan : s.matchChan = []
  idle : ∀ w ∈ s.workers, w.phase.holds = false

theorem Quiet.put (hq : Quiet s) (hworkers : s.workers = pre ++ w :: post) (hphase : phase.holds = false)
    (hchan : ch.matchChan = []) (results : List Match) :
    Quiet (put { s with results := results } pre w post phase left ch) := by
  refine ⟨hq.main,hchan,fun v hv => ?_⟩
  have hidle := hq.idle
  rw [hworkers] at hidle
  rcases mem_append.mp hv with hpre | hcons
  · exact hidle v (mem_append_left _ hpre)
  rcases mem_cons.mp hcons with rfl | hpost
  · exact hphase
  · exact hidle v (mem_append_right _ (mem_cons_of_mem _ hpost))

theorem run_to_scanning (hq : Quiet s) (hworkers : s.workers = pre ++ w :: post) (hready : w.phase = .ready) {keys : List String}
    (hkeys : keys.Perm (s.groupMap w.number)) :
    ReflTransGen (CallStep c) s (s.put pre w post (.scanning keys) (s.groupMap w.number) s.toChannels) := by
  have hfree : s.holders w.number = 0 := countP_eq_zero.mpr fun v hv => by simp [hq.idle v hv]
  have hself := put_self hworkers
  rw [hready] at hself
  have hacquire : CallStep c s (s.put pre w post .holding (s.groupMap w.number) s.toChannels) := by
    nth_rewrite 1 [← hself]
    refine step_put (.acquire ?_)
    rw [hself,hfree]
    exact c.workers_pos
  exact (single hacquire).tail (step_put (.snapshot keys hkeys))

/-- It sends the members of its group one by one, and the caller receives each of them. -/
theorem run_sending (hmain : s.main = .collecting) (hchan : ch.matchChan = []) (sent rest : List Transaction) :
    ∃ results, ReflTransGen (CallStep c) (s.put pre w post (.sending key sent rest) left ch)
      (put { s with results := results } pre w post (.sending key (sent ++ rest) []) left ch) := by
  induction rest generalizing s sent with
  | nil => exact ⟨s.results,by rw [append_nil]⟩
  | cons groupedTxn rest ih =>
    obtain ⟨results,hrun⟩ := ih (s := { s with results := s.results ++ [c.message w.txn groupedTxn] }) hmain (sent ++ [groupedTxn])
    rw [append_assoc] at hrun
    have hsend : CallStep c (s.put pre w post (.sending key sent (groupedTxn :: rest)) left ch)
        (s.put pre w post (.sending key (sent ++ [groupedTxn]) rest) left
          { ch with matchChan := ch.matchChan ++ [c.message w.txn groupedTxn] }) :=
      step_put (.send key sent groupedTxn rest (by rw [hchan]; exact c.capacity_pos))
    have hcollect : CallStep c (s.put pre w post (.sending key (sent ++ [groupedTxn]) rest) left
          { ch with matchChan := ch.matchChan ++ [c.message w.txn groupedTxn] })
        (put { s with results := s.results ++ [c.message w.txn groupedTxn] } pre w post
          (.sending key (sent ++ [groupedTxn]) rest) left ch) := by
      have hstep := front (c := c) (s := s.put pre w post (.sending key (sent ++ [groupedTxn]) rest) left
        { ch with matchChan := ch.matchChan ++ [c.message w.txn groupedTxn] }) _
        (.collect (c.message w.txn groupedTxn) [] hmain (by simp [put,hchan]))
      obtain ⟨matchChan,unmatchedChan⟩ := ch
      obtain rfl : matchChan = [] := hchan
      exact hstep
    exact ⟨results,(single hsend).tail hcollect |>.trans hrun⟩

theorem run_claiming (hq : Quiet s) (hworkers : s.workers = pre ++ w :: post) (hready : w.phase = .ready)
    (hkey : key ∈ s.groupMap w.number) (haccepts : c.accepts w.txn w.page key = true) :
    ∃ results, ReflTransGen (CallStep c) s
      (put { s with results := results } pre w post (.done (some key)) ((s.groupMap w.number).erase key)
        s.toChannels) := by
  have hscan := run_to_scanning (c := c) hq hworkers hready (perm_cons_erase hkey).symm
  have hclaim : CallStep c (s.put pre w post (.scanning (key :: (s.groupMap w.number).erase key)) (s.groupMap w.number) s.toChannels)
      (s.put pre w post (.sending key [] (w.page.group key)) ((s.groupMap w.number).erase key) s.toChannels) :=
    step_put (.claim key _ haccepts hkey)
  obtain ⟨results,hsend⟩ : ∃ results, ReflTransGen (CallStep c)
      (s.put pre w post (.sending key [] (w.page.group key)) ((s.groupMap w.number).erase key) s.toChannels)
      (put { s with results := results } pre w post (.sending key ([] ++ w.page.group key) [])
        ((s.groupMap w.number).erase key) s.toChannels) := run_sending hq.main hq.chan [] (w.page.group key)
  refine ⟨results,(hscan.tail hclaim).trans (hsend.trans ?_)⟩
  exact (single (step_put (.sent key _))).tail (step_put (.release (some key)))

theorem run_exhausting (hq : Quiet s) (hworkers : s.workers = pre ++ w :: post) (hready : w.phase = .ready)
    (hnone : ∀ key ∈ s.groupMap w.number, ¬ c.accepts w.txn w.page key = true) :
    ReflTransGen (CallStep c) s (s.put pre w post .reporting (s.groupMap w.number) s.toChannels) := by
  have hskip : ∀ keys : List String, (∀ key ∈ keys, ¬ c.accepts w.txn w.page key = true) →
      ReflTransGen (CallStep c) (s.put pre w post (.scanning keys) (s.groupMap w.number) s.toChannels)
        (s.put pre w post (.scanning []) (s.groupMap w.number) s.toChannels) := by
    intro keys hkeys
    induction keys with
    | nil => exact .refl
    | cons key keys ih =>
      refine .head (step_put (.skip key keys fun h => hkeys key mem_cons_self h.1)) (ih fun key' hkey' => ?_)
      exact hkeys key' (mem_cons_of_mem _ hkey')
  exact ((run_to_scanning hq hworkers hready (.refl _)).trans (hskip _ hnone)).tail (step_put .exhausted)

theorem run_reporting (hq : Quiet s) (hworkers : s.workers = pre ++ w :: post) (hready : w.phase = .ready)
    (hnone : ∀ key ∈ s.groupMap w.number, ¬ c.accepts w.txn w.page key = true)
    (hroom : s.unmatchedChan.length < c.capacity) :
    ReflTransGen (CallStep c) s
      (s.put pre w post (.done none) (s.groupMap w.number)
        { s.toChannels with unmatchedChan := s.unmatchedChan ++ [w.txn.transactionID] }) :=
  ((run_exhausting hq hworkers hready hnone).tail (step_put (.report hroom))).tail (step_put (.release none))

end Alone

/-- All workers of the first pages are launched and none has moved. -/
structure Untouched (c : Call) (s : CallState) (n : ℕ) : Prop where
  ready : ∀ w ∈ s.workers, w.phase = .ready
  assigned : assignments s.workers = c.blocks n
  maps : ∀ k p, k < n → c.pages[k]? = some p → s.groupMap k = p.keys
  chan : s.matchChan = []
  empty : s.unmatchedChan = []

variable {n k : ℕ}

theorem Untouched.quiet (h : Untouched c s n) (hmain : s.main = .collecting) : Quiet s :=
  ⟨hmain,h.chan,fun w hw => by rw [h.ready w hw]; rfl⟩

theorem Untouched.mem_workers (h : Untouched c s n) (hsound : Sound c s) (hk : k < n) (hpage : c.pages[k]? = some p)
    (hx : x ∈ c.singleTxns) : (⟨k,p,x,.ready⟩ : Worker) ∈ s.workers := by
  have hmem : (k,x) ∈ assignments s.workers := by
    rw [h.assigned]
    exact mem_blocks.mpr ⟨hk,hx⟩
  obtain ⟨⟨number,page,txn,phase⟩,hw,hnumber,htxn⟩ := exists_worker_of_assigned hmem
  have hp := hsound.numbered _ hw
  have hphase := h.ready _ hw
  subst hnumber htxn hphase
  cases hpage.symm.trans hp
  exact hw

theorem run_launching {rest : List Transaction} (hmain : s.main = .launching k p rest) :
    ReflTransGen (CallStep c) s
      { s with main := .launching k p [], workers := s.workers ++ rest.map fun txn => ⟨k,p,txn,.ready⟩ } := by
  induction rest generalizing s with
  | nil =>
    rw [map_nil,append_nil,← hmain]
  | cons txn rest ih =>
    have hrun := ih (s := { s with main := .launching k p rest, workers := s.workers ++ [⟨k,p,txn,.ready⟩] }) rfl
    simp only [append_assoc,singleton_append] at hrun
    exact .head (.launch k p txn rest hmain) hrun

/-- Every page can be visited before a worker moves. -/
theorem exists_untouched (c : Call) (hn : n ≤ c.pages.length) :
    ∃ s, c.Reaches s ∧ s.main = .fetching n ∧ Untouched c s n := by
  induction n with
  | zero => exact ⟨.initial,.refl,rfl,nofun,rfl,fun k p hk => absurd hk (Nat.not_lt_zero k),rfl,rfl⟩
  | succ n ih =>
    obtain ⟨s,hreach,hmain,huntouched⟩ := ih (Nat.le_of_succ_le hn)
    obtain ⟨p,hpage⟩ : ∃ p, c.pages[n]? = some p := ⟨_,List.getElem?_eq_getElem hn⟩
    let fetched : CallState := { s with main := .launching n p c.singleTxns, groupMap := update s.groupMap n p.keys }
    have hfetch : CallStep c s fetched := .fetch n p hmain hpage
    have hlaunch := run_launching (c := c) (s := fetched) rfl
    have hcheck : CallStep c { fetched with main := .launching n p [], workers := fetched.workers ++ c.singleTxns.map fun txn => ⟨n,p,txn,.ready⟩ }
        { fetched with main := .checking n, workers := fetched.workers ++ c.singleTxns.map fun txn => ⟨n,p,txn,.ready⟩ } :=
      .front _ (.launched n p rfl)
    have hnext : CallStep c
        { fetched with main := .checking n, workers := fetched.workers ++ c.singleTxns.map fun txn => ⟨n,p,txn,.ready⟩ }
        { fetched with main := .fetching (n+1), workers := fetched.workers ++ c.singleTxns.map fun txn => ⟨n,p,txn,.ready⟩ } := by
      have hstep := front (c := c)
        (s := { fetched with main := .checking n, workers := fetched.workers ++ c.singleTxns.map fun txn => ⟨n,p,txn,.ready⟩ }) _
        (.check n rfl)
      have hleft : fetched.groupMap n ≠ [] := by simpa [fetched] using GroupPage.keys_ne_nil
      simpa [hleft] using hstep
    refine ⟨_,(((hreach.tail hfetch).trans hlaunch).tail hcheck).tail hnext,rfl,?_,?_,?_,huntouched.chan,huntouched.empty⟩
    · intro w hw
      rcases mem_append.mp hw with hw | hw
      · exact huntouched.ready w hw
      · obtain ⟨txn,-,rfl⟩ := mem_map.mp hw
        rfl
    · simp only [assignments,map_append,blocks_succ,← huntouched.assigned,List.map_map,fetched]
      rfl
    · intro k p' hk hpage'
      dsimp only [fetched]
      by_cases hkn : k = n
      · subst hkn
        rw [update_self,Option.some.inj (hpage'.symm.trans hpage)]
      · rw [update_of_ne hkn]
        exact huntouched.maps k p' (by omega) hpage'

theorem exists_collecting (c : Call) (hpages : c.pages ≠ []) :
    ∃ s, c.Reaches s ∧ s.main = .collecting ∧ Untouched c s c.pages.length := by
  obtain ⟨s,hreach,hmain,huntouched⟩ := exists_untouched c le_rfl
  have hstep := front _ (.fetchEnd _ hmain (List.getElem?_eq_none le_rfl))
  rw [if_neg (by simpa using hpages)] at hstep
  exact ⟨_,hreach.tail hstep,rfl,huntouched.ready,huntouched.assigned,huntouched.maps,huntouched.chan,huntouched.empty⟩

theorem CallStep.assigned_prefix (h : CallStep c s t) : assignments s.workers <+: assignments t.workers := by
  cases h with
  | front f _ => exact prefix_rfl
  | fetch k p _ _ => exact prefix_rfl
  | launch k p txn rest _ =>
    rw [assignments,assignments,map_append]
    exact prefix_append ..
  | worker pre w post phase groupMap ch hworkers _ =>
    rw [hworkers]
    simp [assignments]

theorem assigned_kept (h : ReflTransGen (CallStep c) s t) : assignments s.workers ⊆ assignments t.workers := by
  induction h with
  | refl => exact List.Subset.refl _
  | tail _ hlast ih => exact fun a ha => hlast.assigned_prefix.subset (ih ha)

theorem done_kept (h : ReflTransGen (CallStep c) s t) (hw : w ∈ s.workers) (hdone : w.phase.isDone = true) : w ∈ t.workers := by
  induction h with
  | refl => exact hw
  | tail _ hlast ih =>
    cases hlast with
    | front f _ => exact ih
    | fetch k p _ _ => exact ih
    | launch k p txn rest _ => exact mem_append_left _ ih
    | worker pre v post phase groupMap ch hworkers hv =>
      rw [hworkers] at ih
      rcases mem_append.mp ih with hpre | hcons
      · exact mem_append_left _ hpre
      rcases mem_cons.mp hcons with rfl | hpost
      · rw [hv.not_done] at hdone
        cases hdone
      · exact mem_append_right _ (mem_cons_of_mem _ hpost)

/-- Workers that run one after the other claim the groups that they are meant for. -/
theorem exists_claimed (taker : String → Transaction) {keys : List String} (hreach : c.Reaches s) (hq : Quiet s)
    (hpage : c.pages[k]? = some p) (hnodup : keys.Nodup)
    (hkeys : ∀ key ∈ keys, key ∈ s.groupMap k ∧ c.accepts (taker key) p key = true ∧ ⟨k,p,taker key,.ready⟩ ∈ s.workers)
    (hinj : ∀ a ∈ keys, ∀ b ∈ keys, taker a = taker b → a = b) :
    ∃ t, ReflTransGen (CallStep c) s t ∧ Quiet t ∧ t.unmatchedChan = s.unmatchedChan ∧ t.groupMap k ⊆ s.groupMap k ∧
      (∀ key ∈ keys, key ∉ t.groupMap k) ∧ (∀ j ≠ k, t.groupMap j = s.groupMap j) ∧
      ∀ w ∈ s.workers, (w.number = k → ∀ key ∈ keys, w.txn ≠ taker key) → w ∈ t.workers := by
  induction keys generalizing s with
  | nil => exact ⟨s,.refl,hq,rfl,List.Subset.refl _,nofun,fun _ _ => rfl,fun w hw _ => hw⟩
  | cons key keys ih =>
    obtain ⟨hnew,hnodup⟩ := nodup_cons.mp hnodup
    obtain ⟨hkey,haccepts,hw⟩ := hkeys key mem_cons_self
    obtain ⟨pre,post,hworkers⟩ := append_of_mem hw
    obtain ⟨results,hrun⟩ := run_claiming hq hworkers rfl hkey haccepts
    obtain ⟨s₁,hs₁⟩ : ∃ s₁, s₁ = put { s with results := results } pre ⟨k,p,taker key,.ready⟩ post (.done (some key))
      ((s.groupMap k).erase key) s.toChannels := ⟨_,rfl⟩
    rw [← hs₁] at hrun
    have hmap : s₁.groupMap k = (s.groupMap k).erase key := by
      rw [hs₁]
      exact update_self ..
    have hmaps : ∀ j ≠ k, s₁.groupMap j = s.groupMap j := by
      intro j hj
      rw [hs₁]
      exact update_of_ne hj ..
    have hothers : ∀ v ∈ s.workers, (v.number = k → v.txn ≠ taker key) → v ∈ s₁.workers := by
      intro v hv hne
      rw [hworkers] at hv
      rw [hs₁]
      rcases mem_append.mp hv with hpre | hcons
      · exact mem_append_left _ hpre
      rcases mem_cons.mp hcons with rfl | hpost
      · exact absurd rfl (hne rfl)
      · exact mem_append_right _ (mem_cons_of_mem _ hpost)
    have hmapNodup : (s.groupMap k).Nodup :=
      ((reaches hreach).left k p hpage (.inl ⟨_,hw,rfl⟩)).1.nodup p.distinct
    obtain ⟨t,hlater,hqt,hchan,hsub,hgone,hsame,hkept⟩ := ih (hreach.trans hrun)
      (hs₁ ▸ hq.put hworkers rfl hq.chan results) hnodup
      (fun key' hkey' => by
        obtain ⟨hleft,haccepts',hworker⟩ := hkeys key' (mem_cons_of_mem _ hkey')
        have hne : key' ≠ key := fun h => hnew (h ▸ hkey')
        refine ⟨by rw [hmap]; exact (mem_erase_of_ne hne).mpr hleft,haccepts',hothers _ hworker fun _ htaker => hne ?_⟩
        exact hinj key' (mem_cons_of_mem _ hkey') key mem_cons_self htaker)
      (fun a ha b hb => hinj a (mem_cons_of_mem _ ha) b (mem_cons_of_mem _ hb))
    rw [hmap] at hsub
    refine ⟨t,hrun.trans hlater,hqt,hchan.trans (by rw [hs₁]; rfl),fun a ha => mem_of_mem_erase (hsub ha),
      fun key' hkey' => ?_,fun j hj => (hsame j hj).trans (hmaps j hj),fun v hv hne => ?_⟩
    · rcases mem_cons.mp hkey' with rfl | hkey'
      · exact fun hmem => hmapNodup.not_mem_erase (hsub hmem)
      · exact hgone key' hkey'
    · exact hkept v (hothers v hv fun hv => hne hv key mem_cons_self) fun hv key' hkey' =>
        hne hv key' (mem_cons_of_mem _ hkey')

/-- If the others can claim all groups of a page that match an input, its worker can end up with none. -/
theorem exists_unmatched (hpage : c.pages[k]? = some p) (hx : x ∈ c.singleTxns) (hexhaustible : Exhaustible c p x) :
    ∃ s, c.Reaches s ∧ (∀ j < c.pages.length, (j,x) ∈ assignments s.workers) ∧
      ∃ w ∈ s.workers, w.number = k ∧ w.txn = x ∧ w.phase = .done none := by
  obtain ⟨taker,htaker,hinj⟩ := hexhaustible
  have hk : k < c.pages.length := (List.getElem?_eq_some_iff.mp hpage).1
  obtain ⟨s,hreach,hmain,huntouched⟩ := exists_collecting c (ne_nil_of_length_pos (by omega))
  have hmap := huntouched.maps k p hk hpage
  have hwanted : ∀ key ∈ p.keys.filter (c.accepts x p), key ∈ p.keys ∧ c.accepts x p key = true := fun key hkey =>
    mem_filter.mp hkey
  obtain ⟨t,hrun,hqt,hchan,hsub,hgone,-,hkept⟩ := exists_claimed taker hreach (huntouched.quiet hmain) hpage
    (p.distinct.filter (c.accepts x p))
    (fun key hkey => by
      obtain ⟨hmem,haccepts⟩ := hwanted key hkey
      obtain ⟨htxn,-,htakes⟩ := htaker key hmem haccepts
      exact ⟨by rwa [hmap],htakes,huntouched.mem_workers (reaches hreach) hk hpage htxn⟩)
    (fun a ha b hb heq => hinj a (hwanted a ha).1 b (hwanted b hb).1 (hwanted a ha).2 (hwanted b hb).2 heq)
  have hw := hkept _ (huntouched.mem_workers (reaches hreach) hk hpage hx) fun _ key hkey =>
    (htaker key (hwanted key hkey).1 (hwanted key hkey).2).2.1.symm
  obtain ⟨pre,post,hworkers⟩ := append_of_mem hw
  have hreport := run_reporting hqt hworkers rfl
    (fun key hkey haccepts => by
      have hmem : key ∈ p.keys := hmap ▸ hsub hkey
      exact hgone key (mem_filter.mpr ⟨hmem,haccepts⟩) hkey)
    (by rw [hchan,huntouched.empty]; exact c.capacity_pos)
  refine ⟨_,(hreach.trans hrun).trans hreport,fun j hj => ?_,
    ⟨k,p,x,.done none⟩,mem_append_right _ mem_cons_self,rfl,rfl,rfl⟩
  refine assigned_kept (hrun.trans hreport) ?_
  rw [huntouched.assigned]
  exact mem_blocks.mpr ⟨hj,hx⟩

/-- No state that can be reached is stuck, and every input is reported once on return. -/
def Reliable (c : Call) : Prop :=
  ∀ s, c.Reaches s → (s.main ≠ .returned → ∃ t, CallStep c s t) ∧
    (s.main = .returned → ∀ x ∈ c.singleTxns, ReportedOnce c s x)

theorem not_reportedOnce {v : Worker} (hsound : Sound c s) (hacc : Accounted c s) (hmain : s.main = .returned)
    (hw : w ∈ s.workers) (hphase : w.phase = .done none) (hv : v ∈ s.workers) (htxn : v.txn = w.txn)
    (hnumber : v.number ≠ w.number) : ¬ ReportedOnce c s w.txn := by
  have hx := hsound.txn_mem hw
  have hcount := count_unmatched hsound hacc hmain (ne_nil_of_mem (hsound.page_mem hw)) hx
  have hlisted : w ∈ s.workers.filter fun u => u.phase.reported && u.txn = w.txn :=
    mem_filter.mpr ⟨hw,by simp [hphase,Phase.reported]⟩
  rw [countP_eq_length_filter] at hcount
  rintro (⟨-,habsent⟩ | ⟨hunmatched,honce⟩)
  · rw [count_eq_zero.mpr habsent] at hcount
    rw [length_eq_zero_iff.mp hcount.symm] at hlisted
    cases hlisted
  · obtain ⟨matched,hdone⟩ := exists_done ((hacc.returned hmain).1 v hv)
    cases matched with
    | some key => exact hunmatched ((matched_iff hsound hacc hmain hx).mpr ⟨v,hv,htxn,key,hdone⟩)
    | none =>
      have hlisted' : v ∈ s.workers.filter fun u => u.phase.reported && u.txn = w.txn :=
        mem_filter.mpr ⟨hv,by simp [hdone,htxn,Phase.reported]⟩
      obtain ⟨u,hu⟩ := length_eq_one_iff.mp (hcount.symm.trans honce)
      rw [hu,mem_singleton] at hlisted hlisted'
      exact hnumber (by rw [hlisted,hlisted'])

/-- A call is reliable exactly when it visits at most one page, or when on every page every input finds a group whatever
the others claim. -/
theorem inputs_reported_once (c : Call) :
    Reliable c ↔ c.pages.length ≤ 1 ∨ ∀ p ∈ c.pages, ∀ x ∈ c.singleTxns, ¬ Exhaustible c p x := by
  constructor
  · intro hreliable
    by_contra hnot
    push Not at hnot
    obtain ⟨hpages,p,hp,x,hx,hexhaustible⟩ := hnot
    obtain ⟨k,hk⟩ := List.getElem?_of_mem hp
    obtain ⟨s,hreach,hassigned,w,hw,hnumber,rfl,hphase⟩ := exists_unmatched hk hx hexhaustible
    obtain ⟨t,hrun,hend⟩ := exists_end hreach
    have hreach' := hreach.trans hrun
    by_cases hmain : t.main = .returned
    · -- The input has a worker on another page as well.
      obtain ⟨j,hj,hne⟩ : ∃ j < c.pages.length, j ≠ k := ⟨if k = 0 then 1 else 0,by split <;> omega,by split <;> omega⟩
      obtain ⟨v,hv,hvnumber,hvtxn⟩ := exists_worker_of_assigned (assigned_kept hrun (hassigned j hj))
      refine not_reportedOnce (reaches hreach') (Accounted.reaches hreach') hmain
        (done_kept hrun hw (by rw [hphase]; rfl)) hphase hv hvtxn (by rw [hvnumber,hnumber]; exact hne) ?_
      exact (hreliable t hreach').2 hmain w.txn hx
    · obtain ⟨u,hu⟩ := (hreliable t hreach').1 hmain
      exact hend u hu
  · intro hgood s hreach
    have hsound := reaches hreach
    have hacc := Accounted.reaches hreach
    rcases hgood with hsingle | hfound
    · exact ⟨progress hreach fun w hw hphase => room_of_single_page hreach hsingle hw hphase,
        fun hmain x hx => reportedOnce_of_single_page hsound hacc hmain hsingle hx⟩
    refine ⟨progress hreach fun w hw hphase => absurd hphase (hsound.not_unmatched hfound hw).1,fun hmain x hx => ?_⟩
    by_cases hpages : c.pages = []
    · exact reportedOnce_of_single_page hsound hacc hmain (by simp [hpages]) hx
    · exact reportedOnce_of_found hsound hacc hmain hpages hfound hx

/-- A worker that cannot report keeps the channel of matches open, so that the caller never reads the other channel. -/
theorem not_step_of_full (hacc : Accounted c s) (hmain : s.main = .collecting) (hchan : s.matchChan = [])
    (hfull : c.capacity ≤ s.unmatchedChan.length) (hw : w ∈ s.workers) (hphase : w.phase = .reporting)
    (hothers : ∀ v ∈ s.workers, v.phase.isDone = true ∨ v.phase = .reporting) : ¬ CallStep c s t := by
  have hundone : ¬ ∀ v ∈ s.workers, v.phase.isDone = true := by
    intro hall
    have hdone := hall w hw
    rw [hphase] at hdone
    cases hdone
  have hopen : s.matchClosed ≠ true := fun hclosed => hundone (hacc.closed hclosed).2
  intro hstep
  cases hstep with
  | front f hfront =>
    cases hfront with
    | collect m rest _ hsome => rw [hchan] at hsome; cases hsome
    | collected _ _ hclosed => exact hopen hclosed
    | closeMatch _ _ hdone => exact hundone hdone
    | closeUnmatched hclosed _ => exact hopen hclosed
    | fetchEnd k h _ => rw [hmain] at h; cases h
    | launched k p h => rw [hmain] at h; cases h
    | check k h => rw [hmain] at h; cases h
    | deferredSend txn rest h _ => rw [hmain] at h; cases h
    | deferredEnd h => rw [hmain] at h; cases h
    | drain id rest h _ => rw [hmain] at h; cases h
    | drained h _ _ => rw [hmain] at h; cases h
  | fetch k p h _ => rw [hmain] at h; cases h
  | launch k p txn rest h => rw [hmain] at h; cases h
  | worker pre v post phase groupMap ch hworkers hv =>
    have hmem : v ∈ s.workers := hworkers ▸ mem_append_right _ mem_cons_self
    rcases hothers v hmem with hdone | hreporting
    · rw [hv.not_done] at hdone
      cases hdone
    rw [hreporting] at hv
    cases hv with
    | report hroom => exact absurd hroom (Nat.not_lt.mpr hfull)

/-- One transaction of twelve, and two pages with a group of five and a group of seven. -/
def twoPages : Call where
  singleTxns := [⟨"t",Float64.ofInt 12,"","USD",0,""⟩]
  pages := [.ofGroup [("A",⟨"x",Float64.ofInt 5,"A","USD",1,""⟩)] nofun,.ofGroup [("B",⟨"y",Float64.ofInt 7,"B","USD",2,""⟩)] nofun]
  matchingRules := sameAmount
  texts := .plain
  isExternalGrouped := true
  maxWorkers := 10
  nonempty := nofun
  distinct := by decide
  workers_pos := by decide

/-- Both workers find nothing, and there is room for one report. -/
theorem second_report_blocks : ∃ s, twoPages.Reaches s ∧ s.main ≠ .returned ∧ ∀ t, ¬ CallStep twoPages s t := by
  obtain ⟨s,hreach,hmain,huntouched⟩ := exists_collecting twoPages (by decide)
  have hsound := reaches hreach
  have hnone : ∀ p ∈ twoPages.pages, ∀ x ∈ twoPages.singleTxns, ∀ key ∈ p.keys, ¬ twoPages.accepts x p key = true := by
    decide +kernel
  -- In the state before a worker moves, no worker has a group that it could claim.
  have hleft : ∀ u ∈ s.workers, ∀ key ∈ s.groupMap u.number, ¬ twoPages.accepts u.txn u.page key = true := by
    intro u hu
    rw [huntouched.maps u.number u.page (List.getElem?_eq_some_iff.mp (hsound.numbered u hu)).1 (hsound.numbered u hu)]
    exact hnone u.page (hsound.page_mem hu) u.txn (hsound.txn_mem hu)
  obtain ⟨v,rest,hworkers,hv,hrest⟩ := map_eq_cons_iff.mp huntouched.assigned
  obtain ⟨w,rest,rfl,hw,hrest⟩ := map_eq_cons_iff.mp hrest
  obtain rfl := map_eq_nil_iff.mp hrest
  have hvmem : v ∈ s.workers := by simp [hworkers]
  have hwmem : w ∈ s.workers := by simp [hworkers]
  have hq := huntouched.quiet hmain
  have hsplit : s.workers = [] ++ v :: [w] := hworkers
  have hfirst := run_reporting hq hsplit (huntouched.ready v hvmem) (hleft v hvmem)
    (by rw [huntouched.empty]; decide)
  obtain ⟨s₁,hs₁⟩ : ∃ s₁, s₁ = s.put [] v [w] (.done none) (s.groupMap v.number)
    { s.toChannels with unmatchedChan := s.unmatchedChan ++ [v.txn.transactionID] } := ⟨_,rfl⟩
  rw [← hs₁] at hfirst
  have hq₁ : Quiet s₁ := by
    rw [hs₁]
    refine hq.put hsplit rfl ?_ s.results
    exact hq.chan
  have hsplit₁ : s₁.workers = [{ v with phase := .done none }] ++ w :: [] := by rw [hs₁]; rfl
  have hmap : s₁.groupMap = s.groupMap := by
    rw [hs₁]
    exact update_eq_self ..
  have hsecond := run_exhausting hq₁ hsplit₁ (huntouched.ready w hwmem) (hmap ▸ hleft w hwmem)
  have hreach' := (hreach.trans hfirst).trans hsecond
  refine ⟨_,hreach',fun h => ?_,fun t => ?_⟩
  · cases hq₁.main.symm.trans h
  · refine not_step_of_full (Accounted.reaches hreach') hq₁.main hq₁.chan ?_ (mem_append_right _ mem_cons_self) rfl ?_
    · rw [hs₁]
      exact Nat.le_of_eq (by simp [huntouched.empty,put]; rfl)
    · intro u hu
      rcases mem_append.mp hu with hu | hu
      · exact .inl (by rw [mem_singleton.mp hu]; rfl)
      · exact .inr (by rw [mem_singleton.mp hu])

end LedgerForge.Reconciliation
