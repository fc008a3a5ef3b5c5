import LedgerForge.Lineage.ShadowWork

/-! # The lineage outbox and its processors

Processors claim batches of outbox entries for a while, work through them and mark each entry. A claim is a lease: once it
has expired, another processor claims the entry as well.
-/

namespace LedgerForge.Lineage.Outbox

open OutboxStatus Function Finset Option

structure OutboxRow where
  status : OutboxStatus
  attempts : ℕ
  maxAttempts : ℕ
  createdAt : ℕ
  lockedUntil : Option ℕ
deriving DecidableEq

namespace OutboxRow

def claimable (now : ℕ) (row : OutboxRow) : Bool :=
  row.status ∈ [pending,processing] && row.lockedUntil.all (· < now) && row.attempts < row.maxAttempts

def claim (lockedUntil : ℕ) (row : OutboxRow) : OutboxRow := { row with status := processing, lockedUntil := some lockedUntil }

def markOutboxCompleted (row : OutboxRow) : OutboxRow := { row with status := completed, lockedUntil := none }

def markOutboxFailed (row : OutboxRow) : OutboxRow :=
  { row with
    status := if row.maxAttempts ≤ row.attempts+1 then failed else pending
    attempts := row.attempts+1
    lockedUntil := none }

def mark (fails : Bool) (row : OutboxRow) : OutboxRow := if fails then row.markOutboxFailed else row.markOutboxCompleted

end OutboxRow

/-- What a processor has left of its batch, and whether its run of the first entry has failed once it has ended. -/
structure Processor where
  batch : List ℕ
  outcome : Option Bool
deriving DecidableEq

variable {π : Type} [DecidableEq π]

/-- The table by id, the processors, and how many runs of each entry have failed. -/
structure OutboxState (π : Type) where
  now : ℕ
  rows : ℕ → Option OutboxRow
  processors : π → Processor
  failedRuns : ℕ → ℕ

inductive OutboxEvent (π : Type)
  | insert (id createdAt maxAttempts : ℕ)
  | pass (time : ℕ)
  | claim (p : π) (batchSize lockDuration : ℕ) (ids : List ℕ)
  /-- The run of the first entry ends. -/
  | process (p : π) (fails : Bool)
  /-- The statement that marks the first entry is executed, unless the database refuses it. -/
  | mark (p : π) (stored : Bool)
  | crash (p : π)

namespace OutboxState

/-- A batch that a claim returns, oldest entries first. Rows that another statement has locked are skipped, so that any of
the rows can be missing. -/
def claims (s : OutboxState π) (p : π) (batchSize : ℕ) (ids : List ℕ) : Bool :=
  (s.processors p).batch = [] ∧ ids.Nodup ∧ ids.length ≤ batchSize ∧ (∀ id ∈ ids, (s.rows id).any (·.claimable s.now)) ∧
    (ids.filterMap s.rows).Pairwise (·.createdAt ≤ ·.createdAt)

/-- An event that cannot happen changes nothing. -/
def step (s : OutboxState π) : OutboxEvent π → OutboxState π
  | .insert id createdAt maxAttempts => match s.rows id with
    | none => { s with rows := update s.rows id (some ⟨pending,0,maxAttempts,createdAt,none⟩) }
    | some _ => s
  | .pass time => { s with now := s.now+time }
  | .claim p batchSize lockDuration ids =>
    if s.claims p batchSize ids then
      { s with
        rows := fun id => if id ∈ ids then (s.rows id).map (·.claim (s.now+lockDuration)) else s.rows id
        processors := update s.processors p ⟨ids,none⟩ }
    else s
  | .process p fails => match s.processors p with
    | ⟨id :: rest,none⟩ =>
      { s with
        processors := update s.processors p ⟨id :: rest,some fails⟩
        failedRuns := if fails then update s.failedRuns id (s.failedRuns id+1) else s.failedRuns }
    | _ => s
  | .mark p stored => match s.processors p with
    | ⟨id :: rest,some fails⟩ =>
      { s with
        rows := if stored then update s.rows id ((s.rows id).map (·.mark fails)) else s.rows
        processors := update s.processors p ⟨rest,none⟩ }
    | _ => s
  | .crash p => { s with processors := update s.processors p ⟨[],none⟩ }

def init : OutboxState π := ⟨0,fun _ => none,fun _ => ⟨[],none⟩,fun _ => 0⟩

def run (es : List (OutboxEvent π)) : OutboxState π := es.foldl step init

def Completed (s : OutboxState π) (id : ℕ) : Prop := ∃ row, s.rows id = some row ∧ row.status = completed

end OutboxState

open OutboxState

variable {s : OutboxState π} {e : OutboxEvent π} {es : List (OutboxEvent π)}

/-- What completion promises along a sequence of events. -/
structure Final (es : List (OutboxEvent π)) : Prop where
  completed : ∀ before after, before <+: after → after <+: es → ∀ id, (run before).Completed id → (run after).Completed id
  claimed : ∀ before p batchSize lockDuration ids, before ++ [.claim p batchSize lockDuration ids] <+: es →
    (run before).claims p batchSize ids → ∀ id ∈ ids, ∀ earlier, earlier <+: before → ¬ (run earlier).Completed id
  attempts : ∀ before, before <+: es → ∀ id row, (run before).rows id = some row → row.attempts ≤ row.maxAttempts
  failed : ∀ before, before <+: es → ∀ id row, (run before).rows id = some row → row.status = failed →
    row.maxAttempts ≤ (run before).failedRuns id

/-- A processor that marks a failed run finds the entry open: nobody else has completed it or used up its attempts. -/
def MarksOpen (s : OutboxState π) (e : OutboxEvent π) : Prop :=
  ∀ p id rest row, e = .mark p true → s.processors p = ⟨id :: rest,some true⟩ → s.rows id = some row →
    row.status ≠ completed ∧ row.attempts < row.maxAttempts

def Timely (es : List (OutboxEvent π)) : Prop := ∀ before e, before ++ [e] <+: es → MarksOpen (run before) e

inductive RowStep (s : OutboxState π) (e : OutboxEvent π) (id : ℕ) : Option OutboxRow → Prop
  | same : RowStep s e id (s.rows id)
  | inserted (createdAt maxAttempts : ℕ) (hrow : s.rows id = none) : RowStep s e id (some ⟨pending,0,maxAttempts,createdAt,none⟩)
  | claimed (row : OutboxRow) (lockedUntil : ℕ) (hrow : s.rows id = some row) (hclaim : row.claimable s.now = true) :
      RowStep s e id (some (row.claim lockedUntil))
  | marked (p : π) (rest : List ℕ) (fails : Bool) (row : OutboxRow) (he : e = .mark p true)
      (hp : s.processors p = ⟨id :: rest,some fails⟩) (hrow : s.rows id = some row) : RowStep s e id (some (row.mark fails))

omit [DecidableEq π] in
theorem claims_claimable {p : π} {batchSize id : ℕ} {ids : List ℕ} (h : s.claims p batchSize ids = true) (hid : id ∈ ids) :
    ∃ row, s.rows id = some row ∧ row.claimable s.now = true := by
  simp only [claims,decide_eq_true_eq] at h
  simpa [any_eq_true] using h.2.2.2.1 id hid

theorem rowStep (s : OutboxState π) (e : OutboxEvent π) (id : ℕ) : RowStep s e id ((s.step e).rows id) := by
  cases e with
  | insert id' createdAt maxAttempts =>
    cases hrow : s.rows id' with
    | none =>
      simp only [step,hrow]
      by_cases hid : id = id'
      · subst hid
        rw [update_self]
        exact .inserted createdAt maxAttempts hrow
      · rw [update_of_ne hid]
        exact .same
    | some row =>
      simp only [step,hrow]
      exact .same
  | pass time => exact .same
  | claim p batchSize lockDuration ids =>
    simp only [step]
    split
    · rename_i hclaims
      by_cases hid : id ∈ ids
      · obtain ⟨row,hrow,hclaim⟩ := claims_claimable hclaims hid
        simp only [if_pos hid,hrow,map_some]
        exact .claimed row _ hrow hclaim
      · simp only [if_neg hid]
        exact .same
    · exact .same
  | process p fails =>
    simp only [step]
    split <;> exact .same
  | mark p stored =>
    simp only [step]
    split
    · rename_i id' rest fails hp
      cases stored with
      | false => exact .same
      | true =>
        simp only [if_true]
        by_cases hid : id = id'
        · subst hid
          rw [update_self]
          cases hrow : s.rows id with
          | none =>
            have hsame : RowStep s (.mark p true) id (s.rows id) := .same
            rwa [hrow] at hsame
          | some row => exact .marked p rest fails row rfl hp hrow
        · rw [update_of_ne hid]
          exact .same
    · exact .same
  | crash p => exact .same

theorem run_concat (es : List (OutboxEvent π)) (e : OutboxEvent π) : run (es ++ [e]) = (run es).step e :=
  List.foldl_concat ..

theorem claimable_iff {now : ℕ} {row : OutboxRow} : row.claimable now = true ↔
    (row.status = pending ∨ row.status = processing) ∧ row.lockedUntil.all (· < now) = true ∧ row.attempts < row.maxAttempts := by
  simp [OutboxRow.claimable,and_assoc]

theorem markOutboxFailed_status (row : OutboxRow) : row.markOutboxFailed.status ≠ completed := by
  simp only [OutboxRow.markOutboxFailed]
  split <;> nofun

theorem Completed.step {id : ℕ} (h : s.Completed id) (hopen : MarksOpen s e) : (s.step e).Completed id := by
  obtain ⟨row,hrow,hstatus⟩ := h
  have hstep := rowStep s e id
  generalize hnew : (s.step e).rows id = new at hstep
  cases hstep with
  | same => exact ⟨row,hnew.trans hrow,hstatus⟩
  | inserted _ _ hnone => cases hrow.symm.trans hnone
  | claimed row' _ hrow' hclaim =>
    cases hrow.symm.trans hrow'
    rcases (claimable_iff.mp hclaim).1 with h | h <;> cases hstatus.symm.trans h
  | marked p rest fails row' he hp hrow' =>
    cases fails with
    | false => exact ⟨_,hnew,rfl⟩
    | true => exact absurd hstatus (hopen p id rest row he hp hrow).1

def WithinAttempts (s : OutboxState π) : Prop := ∀ id row, s.rows id = some row → row.attempts ≤ row.maxAttempts

theorem WithinAttempts.step (h : WithinAttempts s) (hopen : MarksOpen s e) : WithinAttempts (s.step e) := by
  intro id row hrow
  have hstep := rowStep s e id
  rw [hrow] at hstep
  generalize hnew : some row = new at hstep
  cases hstep with
  | same => exact h id row hnew.symm
  | inserted =>
    cases hnew
    exact Nat.zero_le _
  | claimed row' _ hrow' _ =>
    cases hnew
    exact h id row' hrow'
  | marked p rest fails row' he hp hrow' =>
    cases hnew
    cases fails with
    | false => exact h id row' hrow'
    | true => exact (hopen p id rest row' he hp hrow').2

/-- A failed run of the entry that its processor has not marked yet. -/
def Unmarked (processors : π → Processor) (id : ℕ) (p : π) : Prop := ∃ rest, processors p = ⟨id :: rest,some true⟩

theorem Unmarked.of_update {processors : π → Processor} {id : ℕ} {p q : π} {proc : Processor}
    (h : Unmarked (update processors p proc) id q) (hproc : proc.outcome ≠ some true) : q ≠ p ∧ Unmarked processors id q := by
  obtain ⟨rest,hq⟩ := h
  have hqp : q ≠ p := by
    rintro rfl
    rw [update_self] at hq
    exact hproc (congrArg Processor.outcome hq)
  exact ⟨hqp,rest,by rwa [update_of_ne hqp] at hq⟩

def attemptsOf (s : OutboxState π) (id : ℕ) : ℕ := (s.rows id).elim 0 OutboxRow.attempts

/-- Every attempt that is counted is a failed run, and so is every failed run that is still to be marked. -/
structure Counted (s : OutboxState π) : Prop where
  runs : ∀ id (ps : Finset π), (∀ p ∈ ps, Unmarked s.processors id p) → attemptsOf s id+ps.card ≤ s.failedRuns id
  failed : ∀ id row, s.rows id = some row → row.status = failed → row.maxAttempts ≤ row.attempts

omit [DecidableEq π] in
theorem Counted.init : Counted (init : OutboxState π) := by
  refine ⟨fun id ps hps => ?_,nofun⟩
  have hnone : ps = ∅ := eq_empty_of_forall_notMem fun p hp => by
    obtain ⟨rest,hrest⟩ := hps p hp
    cases hrest
  simp [hnone,attemptsOf,OutboxState.init]

theorem Counted.runs_process (h : Counted s) {p : π} {id' : ℕ} {rest : List ℕ} (id : ℕ) (ps : Finset π)
    (hps : ∀ q ∈ ps, Unmarked (update s.processors p ⟨id' :: rest,some true⟩) id q) :
    attemptsOf s id+ps.card ≤ update s.failedRuns id' (s.failedRuns id'+1) id := by
  have hothers : ∀ q ∈ ps.erase p, Unmarked s.processors id q := by
    intro q hq
    obtain ⟨hqp,hq⟩ := mem_erase.mp hq
    obtain ⟨rest',hrest⟩ := hps q hq
    exact ⟨rest',by rwa [update_of_ne hqp] at hrest⟩
  have hold := h.runs id _ hothers
  by_cases hpmem : p ∈ ps
  · obtain ⟨rest',hrest⟩ := hps p hpmem
    rw [update_self] at hrest
    cases hrest
    have hcard := card_erase_add_one hpmem
    rw [update_self]
    omega
  · rw [erase_eq_of_notMem hpmem] at hold
    refine hold.trans ?_
    rw [update_apply]
    split
    · rename_i hid
      subst hid
      exact Nat.le_succ _
    · exact le_rfl

theorem Counted.runs_mark (h : Counted s) {p : π} {id : ℕ} {rest : List ℕ} {ps : Finset π}
    (hp : s.processors p = ⟨id :: rest,some true⟩) (hps : ∀ q ∈ ps, Unmarked (update s.processors p ⟨rest,none⟩) id q) :
    ((s.rows id).map (·.mark true)).elim 0 OutboxRow.attempts+ps.card ≤ s.failedRuns id := by
  have hothers : ∀ q ∈ insert p ps, Unmarked s.processors id q := by
    intro q hq
    rcases mem_insert.mp hq with rfl | hq
    · exact ⟨rest,hp⟩
    · exact ((hps q hq).of_update nofun).2
  have hpmem : p ∉ ps := fun hmem => ((hps p hmem).of_update nofun).1 rfl
  have hold := h.runs id _ hothers
  rw [card_insert_of_notMem hpmem] at hold
  refine le_trans ?_ hold
  rw [attemptsOf]
  cases s.rows id with
  | none => simp
  | some row =>
    simp only [map_some,elim_some,OutboxRow.mark,OutboxRow.markOutboxFailed,if_true]
    omega

theorem Counted.runs_step (h : Counted s) (e : OutboxEvent π) (id : ℕ) (ps : Finset π)
    (hps : ∀ p ∈ ps, Unmarked (s.step e).processors id p) : attemptsOf (s.step e) id+ps.card ≤ (s.step e).failedRuns id := by
  cases e with
  | insert id' createdAt maxAttempts =>
    cases hrow : s.rows id' with
    | some row =>
      simp only [step,hrow] at hps ⊢
      exact h.runs id ps hps
    | none =>
      simp only [step,hrow] at hps ⊢
      refine le_trans (Nat.add_le_add_right ?_ _) (h.runs id ps hps)
      by_cases hid : id = id'
      · subst hid
        simp [attemptsOf]
      · simp [attemptsOf,update_of_ne hid]
  | pass time => exact h.runs id ps hps
  | claim p batchSize lockDuration ids =>
    simp only [step] at hps ⊢
    split
    · rename_i hclaims
      rw [if_pos hclaims] at hps
      refine le_trans (Nat.add_le_add_right ?_ _) (h.runs id ps fun q hq => ((hps q hq).of_update nofun).2)
      simp only [attemptsOf]
      split
      · cases s.rows id <;> exact le_rfl
      · exact le_rfl
    · rename_i hclaims
      rw [if_neg hclaims] at hps
      exact h.runs id ps hps
  | process p fails =>
    simp only [step] at hps ⊢
    split at hps
    · cases fails with
      | false => exact h.runs id ps fun q hq => ((hps q hq).of_update nofun).2
      | true => exact h.runs_process id ps hps
    · exact h.runs id ps hps
  | mark p stored =>
    simp only [step] at hps ⊢
    split at hps
    · rename_i id' rest fails hp
      by_cases hid : id = id' ∧ stored = true ∧ fails = true
      · obtain ⟨rfl,rfl,rfl⟩ := hid
        simpa only [attemptsOf,if_true,update_self] using h.runs_mark hp hps
      refine le_trans (Nat.add_le_add_right (le_of_eq ?_) _) (h.runs id ps fun q hq => ((hps q hq).of_update nofun).2)
      simp only [attemptsOf]
      cases stored with
      | false => rfl
      | true =>
        simp only [if_true,update_apply]
        split
        · rename_i hid'
          subst hid'
          have hfails : fails = false := by simpa using hid
          subst hfails
          cases s.rows id <;> rfl
        · rfl
    · exact h.runs id ps hps
  | crash p => exact h.runs id ps fun q hq => ((hps q hq).of_update nofun).2

theorem Counted.step (h : Counted s) (e : OutboxEvent π) : Counted (s.step e) := by
  refine ⟨fun id ps hps => h.runs_step e id ps hps,fun id row hrow hfailed => ?_⟩
  · have hstep := rowStep s e id
    rw [hrow] at hstep
    generalize hnew : some row = new at hstep
    cases hstep with
    | same => exact h.failed id row hnew.symm hfailed
    | inserted =>
      cases hnew
      cases hfailed
    | claimed row' _ hrow' _ =>
      cases hnew
      cases hfailed
    | marked p rest fails row' he hp hrow' =>
      cases hnew
      cases fails with
      | false => cases hfailed
      | true =>
        simp only [OutboxRow.mark,OutboxRow.markOutboxFailed,if_true] at hfailed ⊢
        by_contra hmore
        rw [if_neg hmore] at hfailed
        cases hfailed

theorem Counted.run (es : List (OutboxEvent π)) : Counted (run es) := by
  induction es using List.reverseRecOn with
  | nil => exact .init
  | append_singleton es e ih =>
    rw [run_concat]
    exact ih.step e

theorem Timely.earlier {before : List (OutboxEvent π)} (h : Timely es) (hbefore : before <+: es) : Timely before :=
  fun earlier e hearlier => h earlier e (hearlier.trans hbefore)

theorem Timely.completed {before : List (OutboxEvent π)} {id : ℕ} (hbefore : (run before).Completed id) :
    ∀ later, Timely (before ++ later) → (run (before ++ later)).Completed id := by
  intro later
  induction later using List.reverseRecOn with
  | nil =>
    intro _
    rwa [List.append_nil]
  | append_singleton later e ih =>
    intro h
    rw [← List.append_assoc] at h ⊢
    rw [run_concat]
    exact Completed.step (ih (h.earlier (List.prefix_append ..))) (h _ e List.prefix_rfl)

theorem Timely.withinAttempts (h : Timely es) : WithinAttempts (run es) := by
  induction es using List.reverseRecOn with
  | nil => exact nofun
  | append_singleton es e ih =>
    rw [run_concat]
    exact (ih (h.earlier (List.prefix_append ..))).step (h _ e List.prefix_rfl)

theorem Final.of_timely (h : Timely es) : Final es where
  completed before after hafter hes id hbefore := by
    obtain ⟨later,rfl⟩ := hafter
    exact Timely.completed hbefore later (h.earlier hes)
  claimed before p batchSize lockDuration ids hes hclaims id hid earlier hearlier hcompleted := by
    obtain ⟨later,rfl⟩ := hearlier
    obtain ⟨row,hrow,hstatus⟩ := Timely.completed hcompleted later (h.earlier ((List.prefix_append ..).trans hes))
    obtain ⟨row',hrow',hclaim⟩ := claims_claimable hclaims hid
    cases hrow.symm.trans hrow'
    rcases (claimable_iff.mp hclaim).1 with h | h <;> cases hstatus.symm.trans h
  attempts before hes := (h.earlier hes).withinAttempts
  failed before _ id row hrow hfailed := by
    have hruns := (Counted.run before).runs id ∅ nofun
    have hfailed := (Counted.run before).failed id row hrow hfailed
    simp only [attemptsOf,hrow,elim_some,card_empty,add_zero] at hruns
    exact hfailed.trans hruns

theorem Timely.of_final (h : Final es) : Timely es := by
  intro before e hes p id rest row he hp hrow
  subst he
  have hnew : (run (before ++ [.mark p true])).rows id = some row.markOutboxFailed := by
    rw [run_concat]
    simp [step,hp,hrow,OutboxRow.mark]
  refine ⟨fun hstatus => ?_,?_⟩
  · obtain ⟨row',hrow',hstatus'⟩ := h.completed before _ (List.prefix_append ..) hes id ⟨row,hrow,hstatus⟩
    cases hnew.symm.trans hrow'
    exact markOutboxFailed_status row hstatus'
  · exact h.attempts _ hes id _ hnew

/-- Completion is final exactly along the runs in which every failed run is marked while its entry is open. -/
theorem outbox_completion_final (es : List (OutboxEvent π)) : Final es ↔ Timely es := ⟨.of_final,.of_timely⟩

/-- A processor whose lease expires while it works: another one completes the entry, and the first one reopens it. -/
def lateMark : List (OutboxEvent Bool) :=
  [.insert 7 0 5,.claim true 10 30 [7],.pass 31,.claim false 10 30 [7],.process false false,.mark false true,
    .process true true,.mark true true]

theorem completed_entry_reopened : (run (lateMark.take 6)).Completed 7 ∧ ¬ (run lateMark).Completed 7 ∧
    (run lateMark).claims true 10 [7] = true := by
  refine ⟨⟨⟨completed,0,5,0,none⟩,by decide,rfl⟩,?_,by decide⟩
  rintro ⟨row,hrow,hstatus⟩
  have hpending : (run lateMark).rows 7 = some ⟨pending,1,5,0,none⟩ := by decide
  cases hpending.symm.trans hrow
  cases hstatus

end LedgerForge.Lineage.Outbox
