import LedgerForge.Engine.ActionOutcomes

/-! # Runs of actions by parent

A run of an action that finishes without asking for a retry has brought every leg that was held when it started to a
terminal outcome, and no number of runs settles a leg twice under one action identifier. This needs the assumptions
named below.
-/

namespace LedgerForge

open VersionedStore Database Engine List Paging ActionRun

/-- A leg of the parent that is held: the query by parent finds it, or it executes an intent below the parent. -/
def LegOf (rows : List Row) (parent : String) (h : Row) : Prop :=
  h.heldUnder parent = true ∨
    h.status = .inflight ∧ ∃ i ∈ rows, i.IsIntent ∧ i.parentTransaction = parent ∧ h.parentTransaction = i.transactionID
deriving Decidable

def ActionPhase.next : ActionPhase → Option String
  | .applying (leg :: _) _ => some leg
  | _ => none

namespace ActionSystem

def found (s : ActionSystem) (parent : String) : List Row := s.rows.filter (Row.heldUnder parent)

def Regular (c : ActionSettings) (s : ActionSystem) : ActionEvent → Prop
  | .start a => a.actionID ≠ "" ∧ ∀ h ∈ s.rows, LegOf s.rows a.parent h → h.heldUnder a.parent = true
  | .page i _ => ∀ r ∈ s.runs[i]?, (s.found r.action.parent).length < c.pageSize ∧ r.phase = .collecting 0 [] ∨
      Paging.Distinct c.key (s.found r.action.parent)
  | .leg i _ _ _ => ∀ r ∈ s.runs[i]?, ∀ leg ∈ r.phase.next, r.action.Owns s.rows leg ∧
      ∀ h ∈ s.rows, h.transactionID = leg → h.status = .inflight → r.action.Unreserved s.rows h
  | _ => True

instance (c : ActionSettings) (s : ActionSystem) : (ev : ActionEvent) → Decidable (Regular c s ev)
  | .start _ => inferInstanceAs (Decidable (_ ∧ _))
  | .page i _ => inferInstanceAs (Decidable (∀ r ∈ s.runs[i]?, _))
  | .leg i _ _ _ => inferInstanceAs (Decidable (∀ r ∈ s.runs[i]?, ∀ leg ∈ r.phase.next, _ ∧ _))
  | .operation _ => .isTrue trivial
  | .fetchFailed _ => .isTrue trivial
  | .legFailed _ _ => .isTrue trivial
  | .crash _ => .isTrue trivial

def Regularly (c : ActionSettings) : ActionSystem → List ActionEvent → Prop
  | _, [] => True
  | s, ev :: rest => Regular c s ev ∧ Regularly c (s.step c ev) rest

instance decidableRegularly (c : ActionSettings) (s : ActionSystem) :
    (es : List ActionEvent) → Decidable (Regularly c s es)
  | [] => .isTrue trivial
  | ev :: rest => @instDecidableAnd _ _ _ (decidableRegularly c (s.step c ev) rest)

/-- How a step moves the run it belongs to. -/
inductive Moves (c : ActionSettings) (s : ActionSystem) (i : ℕ) (a : InflightAction) :
    ActionEvent → ActionPhase → Engine → ActionPhase → Prop
  | page {returned : List Row} {offset : ℕ} {legs : List String}
      (perm : returned.Perm (s.engine.database.getInflightTransactionsByParentID a.parent))
      (ordered : Paging.Ordered c.key returned) :
      Moves c s i a (.page i returned) (.collecting offset legs) s.engine (c.collectPage returned offset legs)
  | fetchFailed {offset : ℕ} {legs : List String} :
      Moves c s i a (.fetchFailed i) (.collecting offset legs) s.engine (.finished true)
  | applied {leg generated newID : String} {legs : List String} {transient : Bool} {queuedDebit : Option ℤ} {e : Engine}
      (admissible : s.engine.admissible (a.applyToLeg leg generated newID queuedDebit) = true)
      (performed : s.engine.perform (a.applyToLeg leg generated newID queuedDebit) = .ok e) :
      Moves c s i a (.leg i generated newID queuedDebit) (.applying (leg :: legs) transient) e (.remaining legs transient)
  | refused {leg generated newID m : String} {legs : List String} {transient : Bool} {queuedDebit : Option ℤ}
      (performed : s.engine.perform (a.applyToLeg leg generated newID queuedDebit) = .error m) :
      Moves c s i a (.leg i generated newID queuedDebit) (.applying (leg :: legs) transient) s.engine
        (.remaining legs (transient || !isTerminalInflightError m))
  | legFailed {leg m : String} {legs : List String} {transient : Bool} :
      Moves c s i a (.legFailed i m) (.applying (leg :: legs) transient) s.engine (.remaining legs true)
  | crashed {phase : ActionPhase} : Moves c s i a (.crash i) phase s.engine .crashed

/-- Everything a step can do. -/
inductive Stepped (c : ActionSettings) (s : ActionSystem) : ActionEvent → ActionSystem → Prop
  | idle {ev : ActionEvent} : Stepped c s ev s
  | operated {op : Operation} (generates : op.generates = true) :
      Stepped c s (.operation op) { s with engine := s.engine.step op }
  | started {a : InflightAction} : Stepped c s (.start a) { s with runs := s.runs ++ [⟨a,.collecting 0 []⟩] }
  | moved {i : ℕ} {a : InflightAction} {ev : ActionEvent} {phase phase' : ActionPhase} {e : Engine}
      (run : s.runs[i]? = some ⟨a,phase⟩) (moves : Moves c s i a ev phase e phase') :
      Stepped c s ev ({ s with engine := e }.setPhase i phase')

section Step

variable {c : ActionSettings} {s : ActionSystem} {i : ℕ} {a : InflightAction} {phase : ActionPhase} {ev : ActionEvent}

theorem step_cases : Stepped c s ev (s.step c ev) := by
  cases ev with
  | operation op =>
    rw [step]
    split
    · exact .operated ‹_›
    · exact .idle
  | start a => exact .started
  | page i returned =>
    rw [step]
    split
    · rename_i hrun
      split
      · rename_i hquery
        exact .moved hrun (.page hquery.1 hquery.2)
      · exact .idle
    · exact .idle
  | fetchFailed i =>
    rw [step]
    split
    · exact .moved ‹_› .fetchFailed
    · exact .idle
  | leg i generated newID queuedDebit =>
    rw [step]
    split
    · rename_i hrun
      dsimp only
      split
      · rename_i hadmissible
        rw [applyLeg]
        split
        · exact .moved hrun (.applied hadmissible ‹_›)
        · exact .moved hrun (.refused ‹_›)
      · exact .idle
    · exact .idle
  | legFailed i m =>
    rw [step]
    split
    · split
      · exact .idle
      · exact .moved ‹_› .legFailed
    · exact .idle
  | crash i =>
    rw [step]
    split
    · exact .idle
    · exact .moved ‹_› .crashed
    · exact .idle

theorem getElem?_setPhase (s : ActionSystem) (i j : ℕ) (phase : ActionPhase) : (s.setPhase j phase).runs[i]? =
    if j = i then s.runs[i]?.map fun r => { r with phase := phase } else s.runs[i]? := by
  rw [setPhase]
  split <;> simp [*]

theorem step_run (h : s.runs[i]? = some ⟨a,phase⟩) : ∃ phase', (s.step c ev).runs[i]? = some ⟨a,phase'⟩ ∧
    (phase' = phase ∨ Moves c s i a ev phase (s.step c ev).engine phase') := by
  generalize hs' : s.step c ev = s'
  have hstepped : Stepped c s ev s' := hs' ▸ step_cases
  cases hstepped with
  | idle => exact ⟨phase,h,.inl rfl⟩
  | operated => exact ⟨phase,h,.inl rfl⟩
  | started =>
    obtain ⟨hi,-⟩ := List.getElem?_eq_some_iff.mp h
    exact ⟨phase,(List.getElem?_append_left hi).trans h,.inl rfl⟩
  | @moved j b _ phase₀ phase' e run moves =>
    by_cases hj : j = i
    · subst hj
      obtain ⟨rfl,rfl⟩ := ActionRun.mk.inj (Option.some.inj (run.symm.trans h))
      refine ⟨phase',?_,.inr moves⟩
      rw [getElem?_setPhase,if_pos rfl]
      exact congrArg (Option.map _) h
    · refine ⟨phase,?_,.inl rfl⟩
      rw [getElem?_setPhase,if_neg hj]
      exact h

theorem actions_setPhase (s : ActionSystem) (i : ℕ) (phase : ActionPhase) :
    (s.setPhase i phase).runs.map action = s.runs.map action := by
  apply ext_getElem?
  intro j
  rw [List.getElem?_map,List.getElem?_map,getElem?_setPhase]
  split
  · rw [Option.map_map]
    rfl
  · rfl

end Step

/-- The engine is sound, balances have generated identifiers and every action has an identifier. -/
structure Sound (s : ActionSystem) : Prop where
  engine : s.engine.Sound
  balances : s.engine.database.Generated
  named : ∀ a ∈ s.runs.map action, a.actionID ≠ ""

theorem empty_sound : empty.Sound :=
  ⟨Engine.empty_sound,fun _ h => absurd h not_mem_nil,fun _ h => absurd h not_mem_nil⟩

section Sound

variable {c : ActionSettings} {s : ActionSystem} {ev : ActionEvent}

theorem Sound.named_of_run (h : s.Sound) {i : ℕ} {a : InflightAction} {phase : ActionPhase}
    (hr : s.runs[i]? = some ⟨a,phase⟩) : a.actionID ≠ "" :=
  h.named a (mem_map.mpr ⟨_,mem_of_getElem? hr,rfl⟩)

theorem Sound.step (h : s.Sound) (hr : Regular c s ev) : (s.step c ev).Sound ∧ s.rows <+: (s.step c ev).rows := by
  generalize hs' : s.step c ev = s'
  have hstepped : Stepped c s ev s' := hs' ▸ step_cases
  cases hstepped with
  | idle => exact ⟨h,prefix_rfl⟩
  | @operated op generates =>
    have hstep := step_ok h.engine op
    exact ⟨⟨hstep.sound h.engine,generated_step h.engine h.balances generates,h.named⟩,hstep.rows⟩
  | @started a =>
    refine ⟨⟨h.engine,h.balances,fun b hb => ?_⟩,prefix_rfl⟩
    rw [map_append,mem_append] at hb
    rcases hb with hb | hb
    · exact h.named b hb
    · rw [mem_singleton.mp hb]
      exact hr.1
  | @moved i a _ phase phase' e run moves =>
    have hnamed : ∀ b ∈ ({ s with engine := e }.setPhase i phase').runs.map action, b.actionID ≠ "" := by
      rw [actions_setPhase]
      exact h.named
    cases moves with
    | applied admissible performed =>
      obtain ⟨r,happended,-⟩ := h.engine.leg_appended (h.named_of_run run) admissible performed
      have hrows : e.database.transactions = s.rows ++ [r] := happended.posted.transactions
      exact ⟨⟨h.engine.appended happended,happended.generated h.balances,hnamed⟩,⟨[r],hrows.symm⟩⟩
    | _ => exact ⟨⟨h.engine,h.balances,hnamed⟩,prefix_rfl⟩

theorem run_append (c : ActionSettings) (es es' : List ActionEvent) :
    run c (es ++ es') = es'.foldl (ActionSystem.step c) (run c es) := foldl_append

theorem regularly_append {es es' : List ActionEvent} :
    Regularly c s (es ++ es') ↔ Regularly c s es ∧ Regularly c (es.foldl (ActionSystem.step c) s) es' := by
  induction es generalizing s with
  | nil => exact (and_iff_right trivial).symm
  | cons ev es ih => rw [cons_append,Regularly,Regularly,ih,and_assoc,foldl_cons]

theorem Sound.run (h : s.Sound) {es : List ActionEvent} (hr : Regularly c s es) :
    (es.foldl (ActionSystem.step c) s).Sound ∧ s.rows <+: (es.foldl (ActionSystem.step c) s).rows := by
  induction es generalizing s with
  | nil => exact ⟨h,prefix_rfl⟩
  | cons ev es ih =>
    obtain ⟨hsound,hrows⟩ := h.step hr.1
    obtain ⟨hlast,hmore⟩ := ih hsound hr.2
    exact ⟨hlast,hrows.trans hmore⟩

end Sound

def Applies (s : ActionSystem) (a : InflightAction) (leg : String) (ev : ActionEvent) : Prop :=
  ∃ i generated newID queuedDebit legs transient, ev = .leg i generated newID queuedDebit ∧
    s.runs[i]? = some ⟨a,.applying (leg :: legs) transient⟩ ∧
    s.engine.admissible (a.applyToLeg leg generated newID queuedDebit) = true ∧
    ∃ e, s.engine.perform (a.applyToLeg leg generated newID queuedDebit) = .ok e

section Once

variable {c : ActionSettings} {s : ActionSystem} {ev : ActionEvent} {a : InflightAction} {leg : String}

theorem Sound.applies (h : s.Sound) (ha : s.Applies a leg ev) : ∃ r, (s.step c ev).rows = s.rows ++ [r] ∧
    a.Settlement leg r ∧ ∀ x ∈ s.rows, x.reference ≠ inflightActionReference leg a.action a.actionID := by
  obtain ⟨i,generated,newID,queuedDebit,legs,transient,rfl,hrun,hadmissible,e,hperformed⟩ := ha
  obtain ⟨r,happended,hsettlement⟩ := h.engine.leg_appended (h.named_of_run hrun) hadmissible hperformed
  have hextends : Extends s.engine.queue s.engine.database.transactions r := by
    cases happended.rows with
    | cons head tail => exact head
  refine ⟨r,?_,hsettlement,fun x hx => hsettlement.2.1 ▸ hextends.unused.reference x hx⟩
  rw [ActionSystem.step,hrun]
  simp only [hadmissible,if_true,applyLeg,hperformed]
  exact happended.posted.transactions

end Once

def Progress (c : ActionSettings) (s : ActionSystem) (a : InflightAction) (holds : List Row) (done : Row → Prop) :
    ActionPhase → Prop
  | .collecting offset legs =>
    ∀ h ∈ holds, h.transactionID ∈ legs ∨ offset ≤ rank c.key (s.found a.parent) h
  | .applying legs transient => transient = true ∨ ∀ h ∈ holds, h.transactionID ∈ legs ∨ done h
  | .finished retryable => retryable = true ∨ ∀ h ∈ holds, done h
  | .crashed => True

section Progress

variable {c : ActionSettings} {s s' : ActionSystem} {a : InflightAction} {holds : List Row} {done done' : Row → Prop}

theorem found_sublist (h : s.rows <+: s'.rows) (parent : String) : (s.found parent).Sublist (s'.found parent) :=
  h.sublist.filter _

theorem Progress.mono {phase : ActionPhase} (h : Progress c s a holds done phase) (hrows : s.rows <+: s'.rows)
    (hdone : ∀ h, done h → done' h) : Progress c s' a holds done' phase := by
  cases phase with
  | collecting offset legs =>
    exact fun x hx => (h x hx).imp_right fun hle => hle.trans (rank_mono (found_sublist hrows a.parent))
  | applying legs transient => exact h.imp_right fun hall x hx => (hall x hx).imp_right (hdone x)
  | finished retryable => exact h.imp_right fun hall x hx => hdone x (hall x hx)
  | crashed => exact trivial

theorem progress_remaining {legs : List String} {transient : Bool}
    (h : transient = true ∨ ∀ h ∈ holds, h.transactionID ∈ legs ∨ done h) :
    Progress c s a holds done (.remaining legs transient) := by
  rw [ActionPhase.remaining]
  split
  · rename_i hnil
    subst hnil
    exact h.imp_right fun hall x hx => (hall x hx).resolve_left not_mem_nil
  · exact h

theorem query_perm {parent : String} (h : s.found parent ≠ []) :
    (s.engine.database.getInflightTransactionsByParentID parent).Perm (s.found parent) := by
  obtain ⟨x,hx⟩ := exists_mem_of_ne_nil _ h
  have hany : s.engine.database.transactions.any (Row.heldUnder parent) = true := 
    any_eq_true.mpr ⟨x,mem_filter.mp hx⟩
  rw [getInflightTransactionsByParentID,if_pos hany]
  exact reverse_perm _

theorem page_reaches {returned : List Row} {offset : ℕ} {h : Row} (hh : h ∈ s.found a.parent)
    (hr : (s.found a.parent).length < c.pageSize ∧ offset = 0 ∨ Paging.Distinct c.key (s.found a.parent))
    (hperm : returned.Perm (s.engine.database.getInflightTransactionsByParentID a.parent))
    (hordered : Paging.Ordered c.key returned) (hle : offset ≤ rank c.key (s.found a.parent) h) :
    h ∈ page offset c.pageSize returned ∨ ¬ (page offset c.pageSize returned).length < c.pageSize ∧
      offset+c.pageSize ≤ rank c.key (s.found a.parent) h := by
  have hsame := hperm.trans (query_perm (ne_nil_of_mem hh))
  have hmem := hsame.mem_iff.mpr hh
  rw [← rank_perm hsame] at hle ⊢
  rcases hr with ⟨hshort,rfl⟩ | hdistinct
  · rw [page_eq_self (hsame.length_eq ▸ hshort.le)]
    exact .inl hmem
  have hd := distinct_perm hsame hdistinct
  by_cases hlast : (page offset c.pageSize returned).length < c.pageSize
  · exact .inl (mem_page_of_short hordered hd hmem hle hlast)
  by_cases hnear : rank c.key returned h < offset+c.pageSize
  · exact .inl (mem_page_of_rank hordered hd hmem hle hnear)
  · exact .inr ⟨hlast,not_lt.mp hnear⟩

theorem Progress.page {returned : List Row} {offset : ℕ} {legs : List String}
    (h : Progress c s a holds done (.collecting offset legs)) (hholds : ∀ h ∈ holds, h ∈ s.found a.parent)
    (hr : (s.found a.parent).length < c.pageSize ∧ offset = 0 ∨ Paging.Distinct c.key (s.found a.parent))
    (hperm : returned.Perm (s.engine.database.getInflightTransactionsByParentID a.parent))
    (hordered : Paging.Ordered c.key returned) : Progress c s a holds done (c.collectPage returned offset legs) := by
  have hone : ∀ x ∈ holds,
      x.transactionID ∈ legs ++ (Paging.page offset c.pageSize returned).map Row.transactionID ∨
        ¬ (Paging.page offset c.pageSize returned).length < c.pageSize ∧
          offset+c.pageSize ≤ Paging.rank c.key (s.found a.parent) x := by
    intro x hx
    rcases h x hx with hseen | hle
    · exact .inl (mem_append_left _ hseen)
    · exact (page_reaches (hholds x hx) hr hperm hordered hle).imp_left fun hp =>
        mem_append_right _ (mem_map_of_mem hp)
  unfold ActionSettings.collectPage
  dsimp only
  split
  · rename_i hlast
    exact progress_remaining (.inr fun x hx => .inl ((hone x hx).resolve_right fun hc => hc.1 hlast))
  · exact fun x hx => (hone x hx).imp_right And.right

/-- One step of a run, with the outcomes before and after it. -/
theorem Progress.step {i : ℕ} {ev : ActionEvent} {phase : ActionPhase} (hs : s.Sound) (hr : Regular c s ev)
    (hrun : s.runs[i]? = some ⟨a,phase⟩) (h : Progress c s a holds done phase) (hholds : ∀ h ∈ holds, h ∈ s.found a.parent)
    (hdone : ∀ h, done h → done' h) (hbefore : ∀ h, a.Outcome s.rows h → done' h)
    (hafter : ∀ h, a.Outcome (s.step c ev).rows h → done' h) :
    ∃ phase', (s.step c ev).runs[i]? = some ⟨a,phase'⟩ ∧ Progress c (s.step c ev) a holds done' phase' := by
  obtain ⟨-,hrows⟩ := hs.step hr
  obtain ⟨phase',hrun',hmove⟩ := @step_run c s i a phase ev hrun
  refine ⟨phase',hrun',?_⟩
  rcases hmove with rfl | hmove
  · exact h.mono hrows hdone
  have hid := hs.named_of_run hrun
  generalize (s.step c ev).engine = e at hmove
  cases hmove with
  | page perm ordered =>
    refine (Progress.page h hholds ?_ perm ordered).mono hrows hdone
    exact (hr _ hrun).imp_left fun hfirst => ⟨hfirst.1,(ActionPhase.collecting.inj hfirst.2).1⟩
  | fetchFailed => exact .inl rfl
  | @applied leg generated newID legs transient queuedDebit e admissible performed =>
    obtain ⟨r,hrow,hsettlement,-⟩ := @Sound.applies c s _ a leg hs
      ⟨i,generated,newID,queuedDebit,legs,transient,rfl,hrun,admissible,e,performed⟩
    refine progress_remaining (h.imp_right fun hall x hx => ?_)
    rcases hall x hx with hleg | hx
    · rcases mem_cons.mp hleg with heq | hleg
      · refine .inr (hafter x (.inl ⟨r,?_,heq ▸ hsettlement⟩))
        rw [hrow]
        exact mem_append_right _ (mem_singleton_self r)
      · exact .inl hleg
    · exact .inr (hdone x hx)
  | @refused leg generated newID m legs transient queuedDebit performed =>
    refine progress_remaining ?_
    cases hterminal : isTerminalInflightError m with
    | false => exact .inl (Bool.or_true transient)
    | true =>
      rw [Bool.not_true,Bool.or_false]
      obtain ⟨howns,hopen⟩ := hr _ hrun leg rfl
      refine h.imp_right fun hall x hx => ?_
      rcases hall x hx with hleg | hx'
      · rcases mem_cons.mp hleg with rfl | hleg
        · obtain ⟨hmem,hheld⟩ := mem_filter.mp (hholds x hx)
          rw [Row.heldUnder,Bool.and_eq_true,decide_eq_true_eq] at hheld
          rcases hs.engine.leg_error hs.balances hmem hheld.1 hid howns (hopen x hmem rfl hheld.1) performed with hm | ho
          · rw [hterminal] at hm
            cases hm
          · exact .inr (hbefore x ho)
        · exact .inl hleg
      · exact .inr (hdone x hx')
  | legFailed => exact progress_remaining (.inl rfl)
  | crashed => exact trivial

/-- The outcome of the action on a hold was reached in a state of the run since the action was started. -/
def Reached (c : ActionSettings) (pre : List ActionEvent) (a : InflightAction) (es : List ActionEvent) (h : Row) : Prop :=
  ∃ mid, pre ++ [.start a] <+: mid ∧ mid <+: es ∧ a.Outcome (run c mid).rows h

/-- What a run of an action achieves while the system goes on. -/
theorem progress_run {pre post : List ActionEvent} (hr : Regularly c empty (pre ++ .start a :: post)) :
    ∃ phase, (run c (pre ++ .start a :: post)).runs[(run c pre).runs.length]? = some ⟨a,phase⟩ ∧
      Progress c (run c (pre ++ .start a :: post)) a ((run c pre).found a.parent)
        (Reached c pre a (pre ++ .start a :: post)) phase := by
  induction post using List.reverseRecOn with
  | nil =>
    rw [run_append]
    refine ⟨.collecting 0 [],?_,fun h _ => .inr (Nat.zero_le _)⟩
    exact (List.getElem?_append_right le_rfl).trans (by rw [Nat.sub_self]; rfl)
  | append_singleton post ev ih =>
    have hsplit : pre ++ .start a :: (post ++ [ev]) = pre ++ .start a :: post ++ [ev] := by simp
    rw [hsplit] at hr ⊢
    obtain ⟨hinit,hlast⟩ := regularly_append.mp hr
    obtain ⟨phase,hrun,hprogress⟩ := ih hinit
    have hsound := (empty_sound.run hinit).1
    have hstart : pre ++ [.start a] <+: pre ++ .start a :: post := ⟨post,by simp⟩
    have hrows : (run c pre).rows <+: (run c (pre ++ .start a :: post)).rows := by
      obtain ⟨hpre,hpost⟩ := regularly_append.mp hinit
      rw [run_append]
      exact ((empty_sound.run hpre).1.run hpost).2
    have hstep : run c (pre ++ .start a :: post ++ [ev]) = (run c (pre ++ .start a :: post)).step c ev := by
      rw [run_append]
      rfl
    rw [hstep]
    refine hprogress.step hsound hlast.1 hrun (fun x hx => (found_sublist hrows a.parent).subset hx) ?_ ?_ ?_
    · rintro x ⟨mid,hmid,hle,ho⟩
      exact ⟨mid,hmid,hle.trans (prefix_append _ _),ho⟩
    · exact fun x ho => ⟨_,hstart,prefix_append _ _,ho⟩
    · exact fun x ho => ⟨_,hstart.trans (prefix_append _ _),prefix_rfl,hstep ▸ ho⟩

end Progress

/-- In a run whose steps are regular no action settles a leg twice, also when it is run again, and a run of an action
that finished without a retryable error has reached an outcome for every leg that was held when it started. -/
theorem inflight_action_idempotent (c : ActionSettings) (es : List ActionEvent) (hr : Regularly c empty es) :
    (∀ pre ev mid ev' post a a' leg, es = pre ++ ev :: (mid ++ ev' :: post) → a.action = a'.action →
      a.actionID = a'.actionID → (run c pre).Applies a leg ev → ¬ (run c (pre ++ ev :: mid)).Applies a' leg ev') ∧
    ∀ pre a post, es = pre ++ .start a :: post →
      (run c es).runs[(run c pre).runs.length]? = some ⟨a,.finished false⟩ →
      ∀ h ∈ (run c pre).rows, LegOf (run c pre).rows a.parent h → Reached c pre a es h := by
  constructor
  · intro pre ev mid ev' post a a' leg hes haction hid hfirst hsecond
    subst hes
    obtain ⟨hpre,hrest⟩ := regularly_append.mp hr
    rw [← cons_append] at hrest
    obtain ⟨hmid,-⟩ := regularly_append.mp hrest
    have hsound : (run c pre).Sound := (empty_sound.run hpre).1
    obtain ⟨r,hrow,hsettlement,-⟩ := @Sound.applies c _ _ _ _ hsound hfirst
    obtain ⟨hsound',hrows⟩ := (hsound.step hmid.1).1.run hmid.2
    rw [run_append] at hsecond
    obtain ⟨-,-,-,hfree⟩ := @Sound.applies c _ _ _ _ hsound' hsecond
    have hmem : r ∈ ((run c pre).step c ev).rows := by
      rw [hrow]
      exact mem_append_right _ (mem_singleton_self r)
    exact hfree r (hrows.subset hmem) (haction ▸ hid ▸ hsettlement.2.1)
  · intro pre a post hes hfinished h hh hleg
    subst hes
    obtain ⟨phase,hrun,hprogress⟩ := progress_run hr
    obtain ⟨-,hphase⟩ := ActionRun.mk.inj (Option.some.inj (hrun.symm.trans hfinished))
    subst hphase
    obtain ⟨-,hrest⟩ := regularly_append.mp hr
    have hheld := hrest.1.2 h hh hleg
    exact (hprogress.resolve_left Bool.false_ne_true) h (mem_filter.mpr ⟨hh,hheld⟩)

/-- One creation time for all rows, and the default page size. -/
def defaultSettings : ActionSettings := ⟨fun _ => 0,1000⟩

def heldEvents : List ActionEvent := heldFunds.map .operation

def committedEvents : List ActionEvent := heldEvents ++ [.start ⟨"txn_1","commit",some 0,"act_1"⟩,
  .page 0 ((run defaultSettings heldEvents).found "txn_1"),.leg 0 "ref_1" "txn_3" none]

theorem committed_events_reached : Regularly defaultSettings empty committedEvents ∧
    (run defaultSettings committedEvents).runs = [⟨⟨"txn_1","commit",some 0,"act_1"⟩,.finished false⟩] ∧
    ∃ h ∈ (run defaultSettings heldEvents).rows, h.status = .inflight ∧
      Reached defaultSettings heldEvents ⟨"txn_1","commit",some 0,"act_1"⟩ committedEvents h := by
  have hh : ∃ h ∈ (run defaultSettings heldEvents).rows, h.status = .inflight ∧
      LegOf (run defaultSettings heldEvents).rows "txn_1" h := by decide +kernel
  obtain ⟨h,hmem,hold,hleg⟩ := hh
  exact ⟨by decide +kernel,by decide +kernel,h,hmem,hold,
    (inflight_action_idempotent defaultSettings committedEvents (by decide +kernel)).2 heldEvents _ _ rfl
      (by decide +kernel) h hmem hleg⟩

def splitEvents : List ActionEvent :=
  [.operation (.createBalance "bln_a" "USD"),.operation (.createBalance "bln_b" "USD"),
    .operation (.createBalance "bln_c" "USD"),
    .operation (.postLeg (holdRequest "s" 100 false) ⟨"bln_a","bln_b","s_1",60⟩ "txn_0" "txn_1" "txn_2" none),
    .operation (.postLeg (holdRequest "s" 100 false) ⟨"bln_a","bln_c","s_2",40⟩ "txn_0" "txn_3" "txn_4" none),
    .operation (.work 0 none),.operation (.work 1 none)]

def reservedEvents : List ActionEvent := heldEvents ++ [.operation (.commitQueued "txn_1" (some 100) "c" "txn_3" "txn_4")]

/-- The run finished without a retryable error and without an outcome for the leg. -/
def LeftBehind (pre : List ActionEvent) (a : InflightAction) (es : List ActionEvent) (leg : String) : Prop :=
  (run defaultSettings es).runs = [⟨a,.finished false⟩] ∧
    ∃ h ∈ (run defaultSettings pre).rows, h.transactionID = leg ∧ LegOf (run defaultSettings pre).rows a.parent h ∧
      ¬ Reached defaultSettings pre a es h

theorem leftBehind_of_inits {pre es : List ActionEvent} {a : InflightAction} {leg : String}
    (hrun : (run defaultSettings es).runs = [⟨a,.finished false⟩])
    (h : ∃ h ∈ (run defaultSettings pre).rows, h.transactionID = leg ∧ LegOf (run defaultSettings pre).rows a.parent h ∧
      ∀ mid ∈ es.inits, ¬ a.Outcome (run defaultSettings mid).rows h) : LeftBehind pre a es leg := by
  obtain ⟨h,hmem,hid,hleg,hnone⟩ := h
  refine ⟨hrun,h,hmem,hid,hleg,?_⟩
  rintro ⟨mid,-,hmid,houtcome⟩
  exact hnone mid ((mem_inits mid es).mpr hmid) houtcome

/-- The legs of the split are not found and stay held; the reserved hold counts as committed and stays held when the
queued commit is rejected. -/
theorem finished_action_leaves_holds :
    LeftBehind splitEvents ⟨"txn_0","commit",some 0,"act_1"⟩
      (splitEvents ++ [.start ⟨"txn_0","commit",some 0,"act_1"⟩,.page 0 []]) "txn_2" ∧
    LeftBehind reservedEvents ⟨"txn_1","void",some 0,"act_1"⟩ (reservedEvents ++ [.start ⟨"txn_1","void",some 0,"act_1"⟩,
      .page 0 ((run defaultSettings reservedEvents).found "txn_1"),.leg 0 "ref_1" "txn_5" none,.operation (.reject 0)])
      "txn_1" := by
  exact ⟨leftBehind_of_inits (by decide +kernel) (by decide +kernel),leftBehind_of_inits (by decide +kernel) (by decide +kernel)⟩

end ActionSystem
end LedgerForge
