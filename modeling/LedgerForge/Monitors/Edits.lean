import LedgerForge.Monitors.Coherence

/-! # Edits of monitors

For each edit: the rows stay in step with what was asked for, and the promise is kept exactly under the edit's condition.
-/

namespace LedgerForge.Monitors

open MonitorState List Function EventRuns

variable {π : Type} [DecidableEq π] {s t : MonitorState π} {p : π} {outOfRange : Float64 → ℤ} {monitorID : String}
  {request : MonitorRequest} {m : BalanceMonitor} {r : Requested} {field : MonitorField} {operator : Operator} {value : ℤ}

omit [DecidableEq π] in
theorem Tracked.congr (h : Tracked s) (hrows : t.rows = s.rows) (hlatest : t.latest = s.latest) : Tracked t := by
  refine ⟨?_,?_,?_⟩ <;> simp only [hrows,hlatest]
  · exact h.nodup
  · exact h.asked
  · exact h.stored

omit [DecidableEq π] in
theorem Tracked.create (h : Tracked s) (hfresh : s.getMonitorByID monitorID = none) (hid : m.monitorID = monitorID)
    (hsame : r.balanceID = m.balanceID ∧ r.field = m.field ∧ r.operator = m.operator) (hrows : t.rows = s.rows ++ [m])
    (hlatest : t.latest = update s.latest monitorID (some r)) : Tracked t := by
  have hother := getMonitorByID_none hfresh
  refine ⟨?_,fun m' hm' => ?_,fun other r' hr' => ?_⟩
  · rw [hrows,map_append,nodup_append]
    refine ⟨h.nodup,by simp,?_⟩
    intro a ha b hb
    obtain ⟨m',hm',rfl⟩ := mem_map.mp ha
    simp only [map_cons,map_nil,mem_singleton] at hb
    rw [hb,hid]
    exact hother m' hm'
  · rw [hrows,mem_append,mem_singleton] at hm'
    rw [hlatest]
    rcases hm' with hm' | rfl
    · rw [update_of_ne (hother m' hm')]
      exact h.asked m' hm'
    · rw [hid,update_self]
      exact ⟨r,rfl,hsame⟩
  · rw [hrows]
    by_cases hne : other = monitorID
    · exact ⟨m,by simp,hid.trans hne.symm⟩
    rw [hlatest,update_of_ne hne] at hr'
    obtain ⟨m',hm',hid'⟩ := h.stored other r' hr'
    exact ⟨m',mem_append_left _ hm',hid'⟩

omit [DecidableEq π] in
theorem Tracked.update (h : Tracked s) (hstored : s.getMonitorByID monitorID = some m) (change : BalanceMonitor → BalanceMonitor)
    (hchange : ∀ m, (change m).monitorID = m.monitorID)
    (hsame : ∀ m, r.balanceID = (change m).balanceID ∧ r.field = (change m).field ∧ r.operator = (change m).operator)
    (hrows : t.rows = s.rows.map fun m => if m.monitorID = monitorID then change m else m)
    (hlatest : t.latest = update s.latest monitorID (some r)) : Tracked t := by
  have hids m : (if m.monitorID = monitorID then change m else m).monitorID = m.monitorID := by
    split
    · exact hchange m
    · rfl
  refine ⟨?_,fun m' hm' => ?_,fun other r' hr' => ?_⟩
  · rw [hrows,map_map]
    simpa only [comp_def,hids] using h.nodup
  · rw [hrows] at hm'
    obtain ⟨m₀,hm₀,rfl⟩ := mem_map.mp hm'
    rw [hids,hlatest]
    by_cases hne : m₀.monitorID = monitorID
    · rw [hne,update_self,if_pos rfl]
      exact ⟨r,rfl,hsame m₀⟩
    · rw [update_of_ne hne,if_neg hne]
      exact h.asked m₀ hm₀
  · rw [hrows]
    obtain ⟨hm,hid⟩ := getMonitorByID_some hstored
    by_cases hne : other = monitorID
    · exact ⟨_,mem_map_of_mem hm,(hids m).trans (hid.trans hne.symm)⟩
    rw [hlatest,update_of_ne hne] at hr'
    obtain ⟨m',hm',hid'⟩ := h.stored other r' hr'
    exact ⟨_,mem_map_of_mem hm',(hids m').trans hid'⟩

omit [DecidableEq π] in
theorem Tracked.delete (h : Tracked s) (hrows : t.rows = s.rows.filter (·.monitorID ≠ monitorID))
    (hlatest : t.latest = Function.update s.latest monitorID none) : Tracked t := by
  refine ⟨?_,fun m hm => ?_,fun other r hr => ?_⟩
  · rw [hrows]
    exact h.nodup.sublist (filter_sublist.map _)
  · rw [hrows,mem_filter,decide_eq_true_eq] at hm
    rw [hlatest,update_of_ne hm.2]
    exact h.asked m hm.1
  · by_cases hne : other = monitorID
    · rw [hlatest,hne,update_self] at hr
      cases hr
    rw [hlatest,update_of_ne hne] at hr
    obtain ⟨m,hm,hid⟩ := h.stored other r hr
    exact ⟨m,by rw [hrows]; exact mem_filter.mpr ⟨hm,by simpa [hid] using hne⟩,hid⟩

theorem Tracked.step (h : Tracked s) (e : MonitorEvent π) : Tracked (s.step outOfRange e) := by
  cases e with
  | create p monitorID request =>
    simp only [MonitorState.step,createMonitor]
    split
    · rename_i hfresh _
      exact h.create hfresh rfl ⟨rfl,rfl,rfl⟩ rfl rfl
    · exact h
  | update p monitorID request =>
    simp only [MonitorState.step,updateMonitor]
    split
    · rename_i field operator value hstored _
      exact h.update hstored (·.updated request.balanceID field operator value) (fun _ => rfl) (fun _ => ⟨rfl,rfl,rfl⟩) rfl rfl
    · exact h
  | delete p monitorID =>
    simp only [MonitorState.step,deleteMonitor]
    split
    · exact h
    · exact h.delete rfl rfl
  | check p balance =>
    simp only [MonitorState.step,afterRead]
    split
    · exact h
    all_goals exact h.congr rfl rfl
  | fill read =>
    simp only [MonitorState.step]
    split
    · exact h
    · exact h.congr rfl rfl
  | loseLocal p balanceID => exact h.congr rfl rfl
  | loseShared balanceID => exact h.congr rfl rfl

omit [DecidableEq π] in
theorem Tracked.init : Tracked (init : MonitorState π) :=
  ⟨nodup_nil,fun _ h => absurd h not_mem_nil,fun _ _ h => by cases h⟩

omit [DecidableEq π] in
theorem latest_of_ne {asked : Option Requested} (hlatest : t.latest = update s.latest monitorID asked) {other : String} (hother : other ≠ monitorID) :
    t.latest other = s.latest other := by rw [hlatest,update_of_ne hother]

omit [DecidableEq π] in
theorem rowsExact_create (hs : RowsExact s) (hfresh : s.getMonitorByID monitorID = none) (hid : m.monitorID = monitorID)
    (hrows : t.rows = s.rows ++ [m]) (hlatest : t.latest = update s.latest monitorID (some r)) :
    RowsExact t ↔ Exact m r := by
  constructor
  · intro ht
    exact ht m (by simp [hrows]) r (by rw [hlatest,hid,update_self])
  · intro hexact m' hm' r' hr'
    rw [hrows,mem_append,mem_singleton] at hm'
    rcases hm' with hm' | rfl
    · rw [latest_of_ne hlatest (getMonitorByID_none hfresh m' hm')] at hr'
      exact hs m' hm' r' hr'
    rw [hlatest,hid,update_self] at hr'
    cases hr'
    exact hexact

omit [DecidableEq π] in
theorem rowsExact_update (h : Tracked s) (hs : RowsExact s) (hstored : s.getMonitorByID monitorID = some m)
    (change : BalanceMonitor → BalanceMonitor) (hchange : ∀ m, (change m).monitorID = m.monitorID)
    (hrows : t.rows = s.rows.map fun m => if m.monitorID = monitorID then change m else m)
    (hlatest : t.latest = update s.latest monitorID (some r)) : RowsExact t ↔ Exact (change m) r := by
  obtain ⟨hm,hid⟩ := getMonitorByID_some hstored
  constructor
  · intro ht
    have hmem : change m ∈ t.rows := by
      rw [hrows]
      exact mem_map.mpr ⟨m,hm,if_pos hid⟩
    exact ht _ hmem r (by rw [hlatest,hchange,hid,update_self])
  · intro hexact m' hm' r' hr'
    rw [hrows] at hm'
    obtain ⟨m₀,hm₀,rfl⟩ := mem_map.mp hm'
    by_cases hne : m₀.monitorID = monitorID
    · obtain rfl := h.unique hm₀ hm (hne.trans hid.symm)
      rw [if_pos hne] at hr' ⊢
      rw [hlatest,hchange,hid,update_self] at hr'
      cases hr'
      exact hexact
    · rw [if_neg hne] at hr' ⊢
      rw [latest_of_ne hlatest hne] at hr'
      exact hs m₀ hm₀ r' hr'

omit [DecidableEq π] in
theorem rowsExact_delete (hs : RowsExact s) (hrows : t.rows = s.rows.filter (·.monitorID ≠ monitorID))
    (hlatest : t.latest = update s.latest monitorID none) : RowsExact t := by
  intro m hm r hr
  rw [hrows,mem_filter,decide_eq_true_eq] at hm
  rw [latest_of_ne hlatest hm.2] at hr
  exact hs m hm.1 r hr

theorem create_iff (h : Tracked s) (hs : RowsExact s) (hcopies : CopiesAnswer s) (hfresh : s.getMonitorByID monitorID = none)
    (hcolumns : request.columns = some (field,operator,value)) :
    (RowsExact (s.createMonitor outOfRange p monitorID request) ∧ CopiesAnswer (s.createMonitor outOfRange p monitorID request)) ↔
      operator ≠ .eq ∧
      toInt64 outOfRange (request.value.mul request.precision) = truncate (request.value.value*request.precision.value) ∧
      s.NoOtherCopy p request.balanceID := by
  obtain ⟨t,ht⟩ : ∃ t, t = s.createMonitor outOfRange p monitorID request := ⟨_,rfl⟩
  rw [← ht]
  simp only [createMonitor,hfresh,hcolumns] at ht
  obtain ⟨r,hr⟩ : ∃ r : Requested, r = ⟨request.balanceID,field,operator,request.value,request.precision⟩ := ⟨_,rfl⟩
  have hlatest : t.latest = update s.latest monitorID (some r) := by rw [ht,hr]
  have hnew : t.latest monitorID = some r := by rw [hlatest,update_self]
  have hbefore : ∀ r', s.latest monitorID ≠ some r' := by
    intro r' hr'
    obtain ⟨m,hm,hid⟩ := h.stored monitorID r' hr'
    exact getMonitorByID_none hfresh m hm hid
  have hrows : RowsExact t ↔ Exact _ r := rowsExact_create hs hfresh rfl (by rw [ht]) hlatest
  have hdropped : Dropped s t p request.balanceID := ⟨by rw [ht],by rw [ht]⟩
  rw [hrows,hdropped.copiesAnswer_iff hcopies fun other => latest_of_ne hlatest,hr]
  refine (and_congr_right' ?_).trans and_assoc
  -- The new monitor changes the alerts of its balance and of no other one.
  constructor
  · rintro ⟨hself,-⟩
    exact hself.resolve_right (not_unchanged_of_none (fun r' hr' => absurd hr' (hbefore r')) hnew (by rw [hr]))
  · intro hno
    refine ⟨.inl hno,fun b hb => .inr (unchanged_of_elsewhere (fun r' hr' => absurd hr' (hbefore r')) fun r' hr' => ?_)⟩
    cases hnew.symm.trans hr'
    rw [hr]
    exact hb.symm

theorem update_iff (h : Tracked s) (hs : RowsExact s) (hcopies : CopiesAnswer s) (hstored : s.getMonitorByID monitorID = some m)
    (hasked : s.latest monitorID = some r) (hcolumns : request.columns = some (field,operator,value)) {r' : Requested}
    (hr' : r' = ⟨request.balanceID,field,operator,request.value,s.requestedPrecision monitorID request⟩) :
    (RowsExact (s.updateMonitor p monitorID request) ∧ CopiesAnswer (s.updateMonitor p monitorID request)) ↔
      operator ≠ .eq ∧ m.preciseValue = r'.threshold ∧
      if m.balanceID = request.balanceID then s.NoOtherCopy p request.balanceID ∨ ∀ balance, r.Holds balance ↔ r'.Holds balance
      else s.NoOtherCopy p request.balanceID ∧ s.shared m.balanceID = none ∧ ∀ q, s.locals q m.balanceID = none := by
  obtain ⟨t,ht⟩ : ∃ t, t = s.updateMonitor p monitorID request := ⟨_,rfl⟩
  rw [← ht]
  simp only [updateMonitor,hstored,hcolumns] at ht
  have hlatest : t.latest = update s.latest monitorID (some r') := by rw [ht,hr']
  have hnew : t.latest monitorID = some r' := by rw [hlatest,update_self]
  have hbalance : r.balanceID = m.balanceID := by
    obtain ⟨hm,hid⟩ := getMonitorByID_some hstored
    obtain ⟨r₀,hr₀,hsame,-⟩ := h.asked m hm
    rw [hid] at hr₀
    cases hasked.symm.trans hr₀
    exact hsame
  have hbalance' : r'.balanceID = request.balanceID := by rw [hr']
  have hrows : RowsExact t ↔ Exact (m.updated request.balanceID field operator value) r' :=
    rowsExact_update h hs hstored (·.updated request.balanceID field operator value) (fun _ => rfl) (by rw [ht]) hlatest
  have hdropped : Dropped s t p request.balanceID := ⟨by rw [ht],by rw [ht]⟩
  rw [hrows,hdropped.copiesAnswer_iff hcopies fun other => latest_of_ne hlatest]
  refine (and_congr_right' ?_).trans and_assoc
  have helsewhere b (hb : b ≠ m.balanceID) : ∀ r₀, s.latest monitorID = some r₀ → r₀.balanceID ≠ b := by
    intro r₀ hr₀
    cases hasked.symm.trans hr₀
    exact fun he => hb (he.symm.trans hbalance)
  have helsewhere' b (hb : b ≠ request.balanceID) : ∀ r₀, t.latest monitorID = some r₀ → r₀.balanceID ≠ b := by
    intro r₀ hr₀
    cases hnew.symm.trans hr₀
    exact fun he => hb (he.symm.trans hbalance')
  split_ifs with hsame
  · have hunchanged : Unchanged s t monitorID request.balanceID ↔ ∀ balance, r.Holds balance ↔ r'.Holds balance := by
      constructor
      · intro hu balance
        -- The condition does not look at the id of the balance.
        have hiff := hu { balance with balanceID := request.balanceID } rfl
        simp only [Due,hasked,hnew,Option.some.injEq,exists_eq_left',hbalance,hbalance',hsame,true_and] at hiff
        exact hiff
      · intro hholds balance hid
        simp only [Due,hasked,hnew,Option.some.injEq,exists_eq_left',hbalance,hbalance',hsame,hid,true_and]
        exact hholds balance
    rw [hunchanged]
    refine and_iff_left fun b hb => .inr (unchanged_of_elsewhere (helsewhere b ?_) (helsewhere' b hb))
    rwa [hsame]
  · constructor
    · rintro ⟨hself,hothers⟩
      refine ⟨hself.resolve_right ?_,(hothers m.balanceID hsame).resolve_right ?_⟩
      · exact not_unchanged_of_none (helsewhere _ (Ne.symm hsame)) hnew hbalance'
      · exact fun hu => not_unchanged_of_none (helsewhere' _ hsame) hasked hbalance (unchanged_symm hu)
    · rintro ⟨hno,hold⟩
      refine ⟨.inl hno,fun b hb => ?_⟩
      by_cases hb' : b = m.balanceID
      · rw [hb']
        exact .inl hold
      · exact .inr (unchanged_of_elsewhere (helsewhere b hb') (helsewhere' b hb))

theorem delete_iff (h : Tracked s) (hs : RowsExact s) (hcopies : CopiesAnswer s) (hstored : s.getMonitorByID monitorID = some m) :
    (RowsExact (s.deleteMonitor p monitorID) ∧ CopiesAnswer (s.deleteMonitor p monitorID)) ↔ s.NoOtherCopy p m.balanceID := by
  obtain ⟨t,ht⟩ : ∃ t, t = s.deleteMonitor p monitorID := ⟨_,rfl⟩
  rw [← ht]
  simp only [deleteMonitor,hstored] at ht
  have hlatest : t.latest = update s.latest monitorID none := by rw [ht]
  have hgone : ∀ r, t.latest monitorID ≠ some r := by
    intro r hr
    rw [hlatest,update_self] at hr
    cases hr
  obtain ⟨hm,hid⟩ := getMonitorByID_some hstored
  obtain ⟨r,hr,hbalance,-⟩ := h.asked m hm
  rw [hid] at hr
  have hdropped : Dropped s t p m.balanceID := ⟨by rw [ht],by rw [ht]⟩
  have hrows : RowsExact t := rowsExact_delete hs (by rw [ht]) hlatest
  rw [and_iff_right hrows,hdropped.copiesAnswer_iff hcopies fun other => latest_of_ne hlatest]
  constructor
  · rintro ⟨hself,-⟩
    refine hself.resolve_right fun hu => ?_
    exact not_unchanged_of_none (fun r' hr' => absurd hr' (hgone r')) hr hbalance (unchanged_symm hu)
  · intro hno
    refine ⟨.inl hno,fun b hb => .inr (unchanged_of_elsewhere (fun r' hr' => ?_) fun r' hr' => absurd hr' (hgone r'))⟩
    cases hr.symm.trans hr'
    exact fun he => hb (he.symm.trans hbalance)

omit [DecidableEq π] in
theorem CopiesAnswer.of_copies (hs : CopiesAnswer s) (hlatest : t.latest = s.latest)
    (hcopies : ∀ b monitors, Copy t b monitors → Copy s b monitors ∨ s.Answers b monitors) : CopiesAnswer t := by
  intro b monitors hcopy balance hid monitorID
  have hanswers := (hcopies b monitors hcopy).elim (hs b monitors) fun h => h
  exact (hanswers balance hid monitorID).trans (due_congr (by rw [hlatest]) balance).symm

theorem of_update_local {locals : π → String → Option (List BalanceMonitor)} {copy : Option (List BalanceMonitor)} {q : π}
    {b balanceID : String} {monitors : List BalanceMonitor}
    (h : update locals p (update (locals p) balanceID copy) q b = some monitors) :
    locals q b = some monitors ∨ b = balanceID ∧ copy = some monitors := by
  by_cases hq : q = p
  · subst hq
    rw [update_self] at h
    by_cases hb : b = balanceID
    · rw [hb,update_self] at h
      exact .inr ⟨hb,h⟩
    · rw [update_of_ne hb] at h
      exact .inl h
  · rw [update_of_ne hq] at h
    exact .inl h

theorem copy_afterRead {b : String} {monitors : List BalanceMonitor} {balanceID : String}
    (h : Copy (s.afterRead p balanceID) b monitors) : Copy s b monitors := by
  unfold afterRead at h
  split at h
  · exact h
  · rename_i copy _ hshared
    rcases h with hb | ⟨q,hq⟩
    · exact .inl hb
    rcases of_update_local hq with hlocal | ⟨rfl,hcopy⟩
    · exact .inr ⟨q,hlocal⟩
    · exact .inl (hshared.trans hcopy)
  · exact h

theorem copy_setCopies {b balanceID : String} {monitors copy : List BalanceMonitor}
    (h : Copy (s.setCopies p balanceID (some copy)) b monitors) : Copy s b monitors ∨ b = balanceID ∧ monitors = copy := by
  rcases h with hshared | ⟨q,hq⟩
  · by_cases hb : b = balanceID
    · subst hb
      simp only [setCopies,update_self,Option.some.injEq] at hshared
      exact .inr ⟨rfl,hshared.symm⟩
    · simp only [setCopies,update_of_ne hb] at hshared
      exact .inl (.inl hshared)
  · rcases of_update_local hq with hlocal | ⟨hb,hcopy⟩
    · exact .inl (.inr ⟨q,hlocal⟩)
    · exact .inr ⟨hb,(Option.some.inj hcopy).symm⟩

theorem fill_iff (hs : RowsExact s) (hcopies : CopiesAnswer s) {read : ℕ} {balanceID : String} {monitors : List BalanceMonitor} :
    (RowsExact { s.setCopies p balanceID (some monitors) with pending := s.pending.eraseIdx read } ∧
      CopiesAnswer { s.setCopies p balanceID (some monitors) with pending := s.pending.eraseIdx read }) ↔
      s.Answers balanceID monitors := by
  constructor
  · rintro ⟨-,ht⟩
    exact ht balanceID monitors (.inl (update_self ..))
  · intro hanswers
    refine ⟨hs,hcopies.of_copies rfl fun b copy hcopy => ?_⟩
    rcases copy_setCopies hcopy with hbefore | ⟨rfl,rfl⟩
    · exact .inl hbefore
    · exact .inr hanswers

/-- A step keeps the promise exactly when it is clean. -/
theorem promise_step (h : Tracked s) (hs : RowsExact s) (hcopies : CopiesAnswer s) (e : MonitorEvent π) :
    (RowsExact (s.step outOfRange e) ∧ CopiesAnswer (s.step outOfRange e)) ↔ s.Clean outOfRange e := by
  cases e with
  | create p monitorID request =>
    simp only [step,Clean]
    cases hfresh : s.getMonitorByID monitorID with
    | some m => simp [createMonitor,hfresh,hs,hcopies]
    | none =>
      cases hcolumns : request.columns with
      | none => simp [createMonitor,hfresh,hcolumns,hs,hcopies]
      | some columns =>
        obtain ⟨field,operator,value⟩ := columns
        rw [create_iff h hs hcopies hfresh hcolumns]
        constructor
        · rintro hclean _ _ _ - ⟨⟩
          exact hclean
        · intro hclean
          exact hclean field operator value rfl rfl
  | update p monitorID request =>
    simp only [step,Clean]
    cases hstored : s.getMonitorByID monitorID with
    | none => simp [updateMonitor,hstored,hs,hcopies]
    | some m =>
      cases hcolumns : request.columns with
      | none => simp [updateMonitor,hstored,hcolumns,hs,hcopies]
      | some columns =>
        obtain ⟨field,operator,value⟩ := columns
        obtain ⟨hm,hid⟩ := getMonitorByID_some hstored
        obtain ⟨r,hr,-⟩ := h.asked m hm
        rw [hid] at hr
        rw [update_iff h hs hcopies hstored hr hcolumns rfl]
        constructor
        · rintro hclean _ _ _ _ _ ⟨⟩ hr' ⟨⟩
          cases hr.symm.trans hr'
          exact hclean
        · intro hclean
          exact hclean m r field operator value rfl hr rfl
  | delete p monitorID =>
    simp only [step,Clean]
    cases hstored : s.getMonitorByID monitorID with
    | none => simp [deleteMonitor,hstored,hs,hcopies]
    | some m => simp [delete_iff h hs hcopies hstored]
  | check p balance =>
    refine iff_of_true ⟨?_,?_⟩ trivial
    · simp only [step,afterRead]
      split <;> exact hs
    · refine hcopies.of_copies ?_ fun b monitors hcopy => .inl (copy_afterRead hcopy)
      simp only [step,afterRead]
      split <;> rfl
  | fill read =>
    simp only [step,Clean]
    cases hread : s.pending[read]? with
    | none => simp [hs,hcopies]
    | some entry =>
      obtain ⟨p,balanceID,monitors⟩ := entry
      simp only [fill_iff hs hcopies]
      constructor
      · rintro hanswers _ _ _ ⟨⟩
        exact hanswers
      · intro hclean
        exact hclean p balanceID monitors rfl
  | loseLocal p balanceID =>
    refine iff_of_true ⟨hs,hcopies.of_copies rfl fun b monitors hcopy => .inl ?_⟩ trivial
    rcases hcopy with hshared | ⟨q,hq⟩
    · exact .inl hshared
    rcases of_update_local hq with hlocal | ⟨-,hlost⟩
    · exact .inr ⟨q,hlocal⟩
    · cases hlost
  | loseShared balanceID =>
    refine iff_of_true ⟨hs,hcopies.of_copies rfl fun b monitors hcopy => .inl ?_⟩ trivial
    rcases hcopy with hshared | hlocal
    · simp only [step] at hshared
      by_cases hb : b = balanceID
      · rw [hb,update_self] at hshared
        cases hshared
      · rw [update_of_ne hb] at hshared
        exact .inl hshared
    · exact .inr hlocal

/-- Alerts follow what was last asked for, all along a run, exactly when every step is clean. -/
theorem monitor_alerts_follow [Inhabited π] (outOfRange : Float64 → ℤ) (es : List (MonitorEvent π)) :
    Always (step outOfRange) init Faithful es ↔ Meets (step outOfRange) init (Clean outOfRange) es := by
  refine always_iff_meets Tracked .init (fun s e h => h.step e) ?_ (fun s e h hs => ?_) es
  · refine (faithful_iff Tracked.init).mpr ⟨fun _ h => absurd h not_mem_nil,?_⟩
    rintro b monitors (hshared | ⟨p,hlocal⟩)
    · cases hshared
    · cases hlocal
  · rw [faithful_iff h] at hs
    rw [faithful_iff (h.step e)]
    exact promise_step h hs.1 hs.2 e

def exampleRequest : MonitorRequest := ⟨"bln_1","balance",">",.ofInt 10,.ofInt 100⟩

def raised : List (MonitorEvent Unit) := [.create () "mon_1" exampleRequest,.update () "mon_1" { exampleRequest with value := .ofInt 50 }]

/-- The monitor moves to another balance while the monitors of the first one are in the cache. -/
def moved : List (MonitorEvent Unit) :=
  [.create () "mon_1" exampleRequest,.check () (uniform "bln_1" 0),.fill 0,
    .update () "mon_1" { exampleRequest with balanceID := "bln_2" }]

def equality : List (MonitorEvent Unit) := [.create () "mon_1" { exampleRequest with operator := "=" }]

theorem alerts_of_earlier_conditions :
    (((raised.foldl (step fun _ => 0) init).checkBalanceMonitors () (uniform "bln_1" 2000)).map (·.monitorID) = ["mon_1"] ∧
      ((raised.foldl (step fun _ => 0) init).latest "mon_1").map (·.threshold) = some 5000) ∧
    (((moved.foldl (step fun _ => 0) init).checkBalanceMonitors () (uniform "bln_1" 2000)).map (·.monitorID) = ["mon_1"] ∧
      ((moved.foldl (step fun _ => 0) init).latest "mon_1").map (·.balanceID) = some "bln_2") ∧
    (((equality.foldl (step fun _ => 0) init).checkBalanceMonitors () (uniform "bln_1" 1000)).map (·.monitorID) = [] ∧
      ((equality.foldl (step fun _ => 0) init).latest "mon_1").map (·.threshold) = some 1000) := by
  decide +kernel

end LedgerForge.Monitors
