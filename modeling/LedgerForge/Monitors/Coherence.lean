import LedgerForge.Monitors.Alerts

/-! # Alerts follow what was asked for

The promise is split: the rows decide what was asked for, and every copy in the cache gives the same alerts. An edit of one
monitor leaves a copy right exactly when the alerts that are due for its balance stay the same.
-/

namespace LedgerForge.Monitors

open MonitorState Function

variable {π : Type} [DecidableEq π] {s t : MonitorState π} {p : π} {m : BalanceMonitor} {r : Requested}
  {balanceID monitorID : String} {monitors : List BalanceMonitor}

def uniform (balanceID : String) (x : ℤ) : Balance := ⟨balanceID,"",⟨x,x,x,x⟩,x,x,none,0⟩

theorem read_uniform (field : MonitorField) (x : ℤ) : field.read (uniform balanceID x) = x := by cases field <;> rfl

theorem exists_holds (r : Requested) (balanceID : String) : ∃ balance : Balance, balance.balanceID = balanceID ∧ r.Holds balance := by
  obtain ⟨x,hx⟩ : ∃ x, r.Holds (uniform balanceID x) := by
    simp only [Requested.Holds,read_uniform]
    cases r.operator with
    | gt => exact ⟨r.threshold+1,by simp⟩
    | lt => exact ⟨r.threshold-1,by simp⟩
    | ge => exact ⟨r.threshold,le_rfl⟩
    | le => exact ⟨r.threshold,le_rfl⟩
    | eq => exact ⟨r.threshold,rfl⟩
    | ne => exact ⟨r.threshold+1,by simp⟩
  exact ⟨_,rfl,hx⟩

def Exact (m : BalanceMonitor) (r : Requested) : Prop := m.operator ≠ .eq ∧ m.preciseValue = r.threshold

theorem exact_iff (hfield : r.field = m.field) (hoperator : r.operator = m.operator) (balanceID : String) :
    (∀ balance : Balance, balance.balanceID = balanceID → (m.checkCondition balance = true ↔ r.Holds balance)) ↔ Exact m r := by
  simp only [BalanceMonitor.checkCondition,Requested.Holds,hfield,hoperator,Exact]
  constructor
  · intro h
    -- The two thresholds are told apart at one of them.
    have hstored := h (uniform balanceID m.preciseValue) rfl
    have hasked := h (uniform balanceID r.threshold) rfl
    simp only [read_uniform] at hstored hasked
    cases hop : m.operator <;> simp only [hop,compare,decide_eq_true_eq] at hstored hasked ⊢
    case eq => simp at hasked
    all_goals exact ⟨nofun,by omega⟩
  · cases h : m.operator <;> simp_all [compare]

/-- The rows and what was asked for agree on everything but the threshold. -/
structure Tracked (s : MonitorState π) : Prop where
  nodup : (s.rows.map (·.monitorID)).Nodup
  asked : ∀ m ∈ s.rows, ∃ r, s.latest m.monitorID = some r ∧ r.balanceID = m.balanceID ∧ r.field = m.field ∧ r.operator = m.operator
  stored : ∀ monitorID r, s.latest monitorID = some r → ∃ m ∈ s.rows, m.monitorID = monitorID

omit [DecidableEq π] in
theorem Tracked.unique (h : Tracked s) {m m' : BalanceMonitor} (hm : m ∈ s.rows) (hm' : m' ∈ s.rows)
    (hid : m.monitorID = m'.monitorID) : m = m' := List.inj_on_of_nodup_map h.nodup hm hm' hid

omit [DecidableEq π] in
theorem getMonitorByID_some (h : s.getMonitorByID monitorID = some m) : m ∈ s.rows ∧ m.monitorID = monitorID :=
  ⟨List.mem_of_find?_eq_some h,by simpa using List.find?_some h⟩

omit [DecidableEq π] in
theorem getMonitorByID_none (h : s.getMonitorByID monitorID = none) : ∀ m ∈ s.rows, m.monitorID ≠ monitorID := by
  simpa [getMonitorByID] using h

omit [DecidableEq π] in
theorem mem_getBalanceMonitors : m ∈ s.getBalanceMonitors balanceID ↔ m ∈ s.rows ∧ m.balanceID = balanceID := by
  simp [getBalanceMonitors]

def RowsExact (s : MonitorState π) : Prop := ∀ m ∈ s.rows, ∀ r, s.latest m.monitorID = some r → Exact m r

omit [DecidableEq π] in
/-- The table answers exactly when every row decides what was asked for. -/
theorem Tracked.rows_answer_iff (h : Tracked s) :
    (∀ balanceID, s.Answers balanceID (s.getBalanceMonitors balanceID)) ↔ RowsExact s := by
  constructor
  · intro hanswers m hm r hr
    obtain ⟨r',hr',hbalance,hfield,hoperator⟩ := h.asked m hm
    cases hr.symm.trans hr'
    refine (exact_iff hfield hoperator m.balanceID).mp fun balance hid => ?_
    have hiff := hanswers m.balanceID balance hid m.monitorID
    constructor
    · intro hcheck
      obtain ⟨r',hr',-,hholds⟩ := hiff.mp ⟨m,mem_getBalanceMonitors.mpr ⟨hm,rfl⟩,rfl,hcheck⟩
      cases hr.symm.trans hr'
      exact hholds
    · intro hholds
      obtain ⟨m',hm',hsame,hcheck⟩ := hiff.mpr ⟨r,hr,hbalance.trans hid.symm,hholds⟩
      rwa [h.unique (mem_getBalanceMonitors.mp hm').1 hm hsame] at hcheck
  · intro hexact balanceID balance hid monitorID
    constructor
    · rintro ⟨m,hm,rfl,hcheck⟩
      obtain ⟨hrow,hwatched⟩ := mem_getBalanceMonitors.mp hm
      obtain ⟨r,hr,hbalance,hfield,hoperator⟩ := h.asked m hrow
      have hdecides := (exact_iff hfield hoperator balanceID).mpr (hexact m hrow r hr) balance hid
      exact ⟨r,hr,hbalance.trans (hwatched.trans hid.symm),hdecides.mp hcheck⟩
    · rintro ⟨r,hr,hbalance,hholds⟩
      obtain ⟨m,hm,rfl⟩ := h.stored monitorID r hr
      obtain ⟨r',hr',hbalance',hfield,hoperator⟩ := h.asked m hm
      cases hr.symm.trans hr'
      have hdecides := (exact_iff hfield hoperator balanceID).mpr (hexact m hm r hr) balance hid
      exact ⟨m,mem_getBalanceMonitors.mpr ⟨hm,hbalance'.symm.trans (hbalance.trans hid)⟩,rfl,hdecides.mpr hholds⟩

def Copy (s : MonitorState π) (balanceID : String) (monitors : List BalanceMonitor) : Prop :=
  s.shared balanceID = some monitors ∨ ∃ p, s.locals p balanceID = some monitors

def CopiesAnswer (s : MonitorState π) : Prop := ∀ balanceID monitors, Copy s balanceID monitors → s.Answers balanceID monitors

omit [DecidableEq π] in
theorem faithful_iff [Inhabited π] (h : Tracked s) : s.Faithful ↔ RowsExact s ∧ CopiesAnswer s := by
  rw [← h.rows_answer_iff]
  constructor
  · intro hs
    refine ⟨fun balanceID balance hid monitorID => ?_,?_⟩
    · -- Without any copy the table is read.
      have hread := hs { s with locals := fun _ _ => none, shared := fun _ => none } ⟨rfl,fun _ _ => .inr rfl,fun _ => .inr rfl⟩
        default balance monitorID
      simpa [checkBalanceMonitors,getBalanceMonitorsCached,getBalanceMonitors,hid,and_assoc,and_comm,and_left_comm] using hread
    · rintro balanceID monitors (hshared | ⟨p,hlocal⟩) balance rfl monitorID
      · have hread := hs { s with locals := fun _ _ => none } ⟨rfl,fun _ _ => .inr rfl,fun _ => .inl rfl⟩ default balance monitorID
        simpa [checkBalanceMonitors,getBalanceMonitorsCached,hshared,and_assoc,and_comm,and_left_comm] using hread
      · have hread := hs s ⟨rfl,fun _ _ => .inl rfl,fun _ => .inl rfl⟩ p balance monitorID
        simpa [checkBalanceMonitors,getBalanceMonitorsCached,hlocal,and_assoc,and_comm,and_left_comm] using hread
  · rintro ⟨hrows,hcopies⟩ t hloses p balance monitorID
    -- Whatever is read is a copy that was there before, or the table.
    have hanswers : s.Answers balance.balanceID (t.getBalanceMonitorsCached p balance.balanceID) := by
      unfold getBalanceMonitorsCached
      split
      · rename_i monitors hlocal
        refine hcopies _ _ (.inr ⟨p,?_⟩)
        rcases hloses.locals p balance.balanceID with hkept | hlost
        · rw [← hkept,hlocal]
        · cases hlost.symm.trans hlocal
      · split
        · rename_i monitors hshared
          refine hcopies _ _ (.inl ?_)
          rcases hloses.shared balance.balanceID with hkept | hlost
          · rw [← hkept,hshared]
          · cases hlost.symm.trans hshared
        · rw [getBalanceMonitors,hloses.rows]
          exact hrows balance.balanceID
    rw [← hanswers balance rfl monitorID]
    simp only [checkBalanceMonitors,List.mem_filter,and_assoc,and_comm]

def Unchanged (s t : MonitorState π) (monitorID balanceID : String) : Prop :=
  ∀ balance : Balance, balance.balanceID = balanceID → (s.Due monitorID balance ↔ t.Due monitorID balance)

omit [DecidableEq π] in
theorem due_congr {other : String} (h : t.latest other = s.latest other) (balance : Balance) :
    t.Due other balance ↔ s.Due other balance := by rw [Due,Due,h]

omit [DecidableEq π] in
theorem answers_iff_unchanged (h : s.Answers balanceID monitors)
    (hlatest : ∀ other, other ≠ monitorID → t.latest other = s.latest other) :
    t.Answers balanceID monitors ↔ Unchanged s t monitorID balanceID := by
  constructor
  · intro ht balance hid
    exact (h balance hid monitorID).symm.trans (ht balance hid monitorID)
  · intro hsame balance hid other
    by_cases hother : other = monitorID
    · subst hother
      exact (h balance hid other).trans (hsame balance hid)
    · exact (h balance hid other).trans (due_congr (hlatest other hother) balance).symm

/-- The cache after an edit by a process that drops the copies of one balance. -/
structure Dropped (s t : MonitorState π) (p : π) (balanceID : String) : Prop where
  locals : t.locals = (s.setCopies p balanceID none).locals
  shared : t.shared = (s.setCopies p balanceID none).shared

theorem Dropped.locals_self (h : Dropped s t p balanceID) : t.locals p balanceID = none := by
  rw [h.locals]
  simp [setCopies]

theorem Dropped.shared_self (h : Dropped s t p balanceID) : t.shared balanceID = none := by
  rw [h.shared]
  simp [setCopies]

theorem Dropped.locals_of_process (h : Dropped s t p balanceID) {q : π} (hq : q ≠ p) (b : String) : t.locals q b = s.locals q b := by
  rw [h.locals]
  simp [setCopies,update_of_ne hq]

theorem Dropped.locals_of_balance (h : Dropped s t p balanceID) (q : π) {b : String} (hb : b ≠ balanceID) :
    t.locals q b = s.locals q b := by
  rw [h.locals]
  by_cases hq : q = p
  · subst hq
    simp [setCopies,update_of_ne hb]
  · simp [setCopies,update_of_ne hq]

theorem Dropped.shared_of_balance (h : Dropped s t p balanceID) {b : String} (hb : b ≠ balanceID) : t.shared b = s.shared b := by
  rw [h.shared]
  simp [setCopies,update_of_ne hb]

/-- An edit leaves the copies right exactly when nothing changes for the balances of which copies are left. -/
theorem Dropped.copiesAnswer_iff (h : Dropped s t p balanceID) (hs : CopiesAnswer s)
    (hlatest : ∀ other, other ≠ monitorID → t.latest other = s.latest other) :
    CopiesAnswer t ↔ (s.NoOtherCopy p balanceID ∨ Unchanged s t monitorID balanceID) ∧
      ∀ b, b ≠ balanceID → (s.shared b = none ∧ ∀ q, s.locals q b = none) ∨ Unchanged s t monitorID b := by
  constructor
  · intro ht
    refine ⟨or_iff_not_imp_left.mpr fun hcopy => ?_,fun b hb => or_iff_not_imp_left.mpr fun hcopy => ?_⟩
    · simp only [NoOtherCopy,not_forall] at hcopy
      obtain ⟨q,hq,hlocal⟩ := hcopy
      obtain ⟨monitors,hlocal⟩ := Option.ne_none_iff_exists'.mp hlocal
      refine (answers_iff_unchanged (hs _ _ (.inr ⟨q,hlocal⟩)) hlatest).mp (ht _ _ (.inr ⟨q,?_⟩))
      rw [h.locals_of_process hq,hlocal]
    · obtain ⟨monitors,hmonitors⟩ : ∃ monitors, Copy s b monitors := by
        by_contra hnone
        simp only [Copy,not_exists,not_or] at hnone
        exact hcopy ⟨Option.eq_none_iff_forall_ne_some.mpr fun monitors => (hnone monitors).1,
          fun q => Option.eq_none_iff_forall_ne_some.mpr fun monitors => (hnone monitors).2 q⟩
      refine (answers_iff_unchanged (hs _ _ hmonitors) hlatest).mp (ht _ _ ?_)
      rcases hmonitors with hshared | ⟨q,hlocal⟩
      · exact .inl ((h.shared_of_balance hb).trans hshared)
      · exact .inr ⟨q,(h.locals_of_balance q hb).trans hlocal⟩
  · rintro ⟨hself,hothers⟩ b monitors hcopy
    by_cases hb : b = balanceID
    · subst hb
      rcases hcopy with hshared | ⟨q,hlocal⟩
      · cases h.shared_self.symm.trans hshared
      have hq : q ≠ p := by
        rintro rfl
        cases h.locals_self.symm.trans hlocal
      rw [h.locals_of_process hq] at hlocal
      refine (answers_iff_unchanged (hs _ _ (.inr ⟨q,hlocal⟩)) hlatest).mpr (hself.resolve_left fun hno => ?_)
      cases (hno q hq).symm.trans hlocal
    · have hbefore : Copy s b monitors := by
        rcases hcopy with hshared | ⟨q,hlocal⟩
        · exact .inl ((h.shared_of_balance hb).symm.trans hshared)
        · exact .inr ⟨q,(h.locals_of_balance q hb).symm.trans hlocal⟩
      refine (answers_iff_unchanged (hs _ _ hbefore) hlatest).mpr ((hothers b hb).resolve_left fun hno => ?_)
      rcases hbefore with hshared | ⟨q,hlocal⟩
      · cases hno.1.symm.trans hshared
      · cases (hno.2 q).symm.trans hlocal

omit [DecidableEq π] in
theorem not_unchanged_of_none (hs : ∀ r, s.latest monitorID = some r → r.balanceID ≠ balanceID)
    (ht : t.latest monitorID = some r) (hbalance : r.balanceID = balanceID) : ¬ Unchanged s t monitorID balanceID := by
  intro h
  obtain ⟨balance,hid,hholds⟩ := exists_holds r balanceID
  obtain ⟨r',hr',hbalance',-⟩ := (h balance hid).mpr ⟨r,ht,hbalance.trans hid.symm,hholds⟩
  exact hs r' hr' (hbalance'.trans hid)

omit [DecidableEq π] in
theorem unchanged_symm (h : Unchanged s t monitorID balanceID) : Unchanged t s monitorID balanceID :=
  fun balance hid => (h balance hid).symm

omit [DecidableEq π] in
theorem unchanged_of_elsewhere (hs : ∀ r, s.latest monitorID = some r → r.balanceID ≠ balanceID)
    (ht : ∀ r, t.latest monitorID = some r → r.balanceID ≠ balanceID) : Unchanged s t monitorID balanceID := by
  intro balance hid
  constructor
  · rintro ⟨r,hr,hbalance,-⟩
    exact absurd (hbalance.trans hid) (hs r hr)
  · rintro ⟨r,hr,hbalance,-⟩
    exact absurd (hbalance.trans hid) (ht r hr)

end LedgerForge.Monitors
