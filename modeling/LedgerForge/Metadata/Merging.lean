import LedgerForge.Library.Json
import LedgerForge.Library.EventRuns

/-! # Concurrent metadata updates

A metadata update of a ledger, a balance or an identity loads the stored object, merges the patch into it in memory and
stores the whole object. An update of a transaction lets the database merge the patch into every row of the transaction.
-/

namespace LedgerForge.Metadata

open Relation Function Option

inductive EntityKind
  | ledgers
  | balances
  | identities
  | transactions
deriving DecidableEq

/-- The keys of a stored object with their values. A column that is not an object has no keys. -/
abbrev Object := String → Option GoValue

def mergeMetadata (current new : Object) : Object := fun key => (new key).or (current key)

def runsReconciliation (row : Object) : Bool :=
  match row "LEDGERFORGE_RUN_RECONCILIATION" with
  | some (.string mode) => mode == "SOURCE"
  | _ => false

def reconcileBalance (result : GoValue) (row : Object) : Object :=
  if runsReconciliation row then
    update (update row "LEDGERFORGE_RUN_RECONCILIATION" none) "LEDGERFORGE_RECONCILIATION_RESULT" (some result)
  else row

def EntityKind.stored (kind : EntityKind) (result : GoValue) (row : Object) : Object :=
  match kind with
  | .balances => reconcileBalance result row
  | _ => row

/-- Where a call of UpdateMetadata stands. -/
inductive UpdatePhase
  | started
  | loaded (current : Object)
  /-- The transaction exists. -/
  | checked
  | succeeded
  | failed

def UpdatePhase.isDone : UpdatePhase → Bool
  | .succeeded => true
  | .failed => true
  | _ => false

/-- An entity with the rows that an update of it writes, and the calls that update it. -/
structure Updates where
  kind : EntityKind
  rows : List Object
  calls : ℕ
  patch : Fin calls → Object
  single : kind ≠ .transactions → rows.length = 1

structure UpdateState (u : Updates) where
  rows : List Object
  phase : Fin u.calls → UpdatePhase

variable {u : Updates} {s t : UpdateState u}

def UpdateState.set (s : UpdateState u) (i : Fin u.calls) (phase : UpdatePhase) : UpdateState u :=
  { s with phase := update s.phase i phase }

inductive UpdateStep (u : Updates) : UpdateState u → UpdateState u → Prop
  | load {s : UpdateState u} (i : Fin u.calls) (row : Object) (hkind : u.kind ≠ .transactions) (hphase : s.phase i = .started)
      (hrow : s.rows = [row]) : UpdateStep u s (s.set i (.loaded row))
  | store {s : UpdateState u} (i : Fin u.calls) (current : Object) (result : GoValue) (hphase : s.phase i = .loaded current) :
      UpdateStep u s { s.set i .succeeded with
        rows := s.rows.map fun _ => u.kind.stored result (mergeMetadata current (u.patch i)) }
  | check {s : UpdateState u} (i : Fin u.calls) (hkind : u.kind = .transactions) (hphase : s.phase i = .started) (hexists : s.rows ≠ []) :
      UpdateStep u s (s.set i .checked)
  | merge {s : UpdateState u} (i : Fin u.calls) (hphase : s.phase i = .checked) :
      UpdateStep u s { s.set i .succeeded with rows := s.rows.map fun row => mergeMetadata row (u.patch i) }
  /-- The entity is not found, the patch is refused, or a statement fails. -/
  | fail {s : UpdateState u} (i : Fin u.calls) (hphase : (s.phase i).isDone = false) : UpdateStep u s (s.set i .failed)

def Updates.initial (u : Updates) : UpdateState u := ⟨u.rows,fun _ => .started⟩

def Updates.Reaches (u : Updates) : UpdateState u → Prop := ReflTransGen (UpdateStep u) u.initial

def Given (s : UpdateState u) (key : String) (value : Option GoValue) : Prop :=
  ∃ i, s.phase i = .succeeded ∧ (u.patch i key).isSome ∧ value = u.patch i key

/-- Every key that was stored is still there, and every key that a successful call wrote has the value of a successful call. -/
structure Kept (s : UpdateState u) (before after : Object) : Prop where
  stored : ∀ key, (before key).isSome → (after key).isSome
  written : ∀ i key, s.phase i = .succeeded → (u.patch i key).isSome → Given s key (after key)

/-- Whatever the order of the steps, nothing is lost once all calls are done. -/
def Updates.Lossless (u : Updates) : Prop :=
  ∀ s, u.Reaches s → (∀ i, (s.phase i).isDone = true) → List.Forall₂ (Kept s) u.rows s.rows

/-- What another call writes over a key is written by that call as well, or was there before. -/
def Updates.Harmless (u : Updates) : Prop :=
  ∀ row ∈ u.rows, ∀ i j, i ≠ j → ∀ key value, u.patch i key = some value → (u.patch j key).isSome ∨ row key = some value

def Updates.Unflagged (u : Updates) : Prop :=
  u.kind = .balances → ∀ row ∈ u.rows, ∀ i, runsReconciliation (mergeMetadata row (u.patch i)) = false

/-- A key has its value from before or from a successful call. -/
def Traced (s : UpdateState u) (before after : Object) : Prop := ∀ key, after key = before key ∨ Given s key (after key)

theorem Given.mono {key : String} {value : Option GoValue} (h : Given s key value)
    (hmono : ∀ i, s.phase i = .succeeded → t.phase i = .succeeded) : Given t key value := by
  obtain ⟨i,hphase,hpatch⟩ := h
  exact ⟨i,hmono i hphase,hpatch⟩

theorem UpdateStep.succeeded (h : UpdateStep u s t) {i : Fin u.calls} (hi : s.phase i = .succeeded) : t.phase i = .succeeded := by
  have hset : ∀ j phase, (s.phase j).isDone = false → (s.set j phase).phase i = .succeeded := by
    intro j phase hj
    have hne : i ≠ j := by
      rintro rfl
      rw [hi] at hj
      cases hj
    exact (update_of_ne hne ..).trans hi
  cases h with
  | load j row _ hphase _ => exact hset j _ (by rw [hphase]; rfl)
  | store j current _ hphase => exact hset j _ (by rw [hphase]; rfl)
  | check j _ hphase _ => exact hset j _ (by rw [hphase]; rfl)
  | merge j hphase => exact hset j _ (by rw [hphase]; rfl)
  | fail j hphase => exact hset j _ hphase

/-- What holds of a row as long as nothing is lost. -/
structure RowKept (s : UpdateState u) (before after : Object) : Prop where
  traced : Traced s before after
  written : ∀ i key, s.phase i = .succeeded → (u.patch i key).isSome → Given s key (after key)

theorem RowKept.kept {before after : Object} (h : RowKept s before after) : Kept s before after := by
  refine ⟨fun key hkey => ?_,h.written⟩
  rcases h.traced key with heq | ⟨i,-,hsome,heq⟩
  all_goals rwa [heq]

structure Invariant (s : UpdateState u) : Prop where
  rows : List.Forall₂ (RowKept s) u.rows s.rows
  loaded : ∀ i current, s.phase i = .loaded current → u.kind ≠ .transactions ∧ ∃ row, u.rows = [row] ∧ Traced s row current

theorem Invariant.initial (u : Updates) : Invariant u.initial := by
  refine ⟨?_,nofun⟩
  exact List.forall₂_same.mpr fun row _ => ⟨fun key => .inl rfl,nofun⟩

section Step

variable {before after current : Object} {i : Fin u.calls}

theorem Traced.mono (h : Traced s before after) (hmono : ∀ i, s.phase i = .succeeded → t.phase i = .succeeded) :
    Traced t before after := fun key => (h key).imp id fun h => h.mono hmono

theorem RowKept.mono (h : RowKept s before after) (hsame : ∀ i, s.phase i = .succeeded ↔ t.phase i = .succeeded) :
    RowKept t before after :=
  ⟨h.traced.mono fun i => (hsame i).mp,fun j key hj hkey => (h.written j key ((hsame j).mpr hj) hkey).mono fun i => (hsame i).mp⟩

theorem given_patch {key : String} (hi : t.phase i = .succeeded) (hkey : (u.patch i key).isSome) :
    Given t key (mergeMetadata current (u.patch i) key) := by
  obtain ⟨value,hvalue⟩ := isSome_iff_exists.mp hkey
  exact ⟨i,hi,hkey,by simp [mergeMetadata,hvalue]⟩

theorem mergeMetadata_none {key : String} {new : Object} (hkey : ¬ (new key).isSome) : mergeMetadata current new key = current key := by
  rw [not_isSome_iff_eq_none] at hkey
  simp [mergeMetadata,hkey]

theorem Traced.merge (h : Traced s before current) (hmono : ∀ j, s.phase j = .succeeded → t.phase j = .succeeded)
    (hi : t.phase i = .succeeded) : Traced t before (mergeMetadata current (u.patch i)) := by
  intro key
  by_cases hkey : (u.patch i key).isSome
  · exact .inr (given_patch hi hkey)
  · rw [mergeMetadata_none hkey]
    exact h.mono hmono key

theorem RowKept.merge (h : RowKept s before after) (hmono : ∀ j, s.phase j = .succeeded → t.phase j = .succeeded)
    (hback : ∀ j ≠ i, t.phase j = .succeeded → s.phase j = .succeeded) (hi : t.phase i = .succeeded) :
    RowKept t before (mergeMetadata after (u.patch i)) := by
  refine ⟨h.traced.merge hmono hi,fun j key hj hkey => ?_⟩
  by_cases hwrites : (u.patch i key).isSome
  · exact given_patch hi hwrites
  have hji : j ≠ i := fun hji => hwrites (hji ▸ hkey)
  rw [mergeMetadata_none hwrites]
  exact (h.written j key (hback j hji hj) hkey).mono hmono

theorem rowKept_store (hharmless : u.Harmless) (hbefore : before ∈ u.rows) (h : Traced s before current)
    (hmono : ∀ j, s.phase j = .succeeded → t.phase j = .succeeded) (hi : t.phase i = .succeeded) :
    RowKept t before (mergeMetadata current (u.patch i)) := by
  refine ⟨h.merge hmono hi,fun j key hj hkey => ?_⟩
  by_cases hwrites : (u.patch i key).isSome
  · exact given_patch hi hwrites
  have hji : j ≠ i := fun hji => hwrites (hji ▸ hkey)
  obtain ⟨value,hvalue⟩ := isSome_iff_exists.mp hkey
  have hsame := (hharmless before hbefore j i hji key value hvalue).resolve_left hwrites
  rw [mergeMetadata_none hwrites]
  rcases h key with heq | hgiven
  · exact ⟨j,hj,hkey,by rw [heq,hsame,hvalue]⟩
  · exact hgiven.mono hmono

theorem runsReconciliation_congr {row row' : Object}
    (h : row "LEDGERFORGE_RUN_RECONCILIATION" = row' "LEDGERFORGE_RUN_RECONCILIATION") :
    runsReconciliation row = runsReconciliation row' := by
  rw [runsReconciliation,runsReconciliation,h]

theorem stored_eq (hunflagged : u.Unflagged) (hbefore : before ∈ u.rows) (h : Traced s before current) (result : GoValue) :
    u.kind.stored result (mergeMetadata current (u.patch i)) = mergeMetadata current (u.patch i) := by
  cases hkind : u.kind with
  | balances =>
    have hflag := hunflagged hkind before hbefore
    suffices hquiet : runsReconciliation (mergeMetadata current (u.patch i)) = false by
      simp [EntityKind.stored,reconcileBalance,hquiet]
    -- The flag is the call's own, the first one of the row, or that of another call.
    by_cases hwrites : (u.patch i "LEDGERFORGE_RUN_RECONCILIATION").isSome
    · obtain ⟨value,hvalue⟩ := isSome_iff_exists.mp hwrites
      rw [← hflag i]
      exact runsReconciliation_congr (by simp [mergeMetadata,hvalue])
    have hown : mergeMetadata current (u.patch i) "LEDGERFORGE_RUN_RECONCILIATION" = current "LEDGERFORGE_RUN_RECONCILIATION" :=
      mergeMetadata_none hwrites
    rcases h "LEDGERFORGE_RUN_RECONCILIATION" with heq | ⟨j,-,hsome,heq⟩
    · rw [← hflag i]
      exact runsReconciliation_congr (by rw [hown,heq,mergeMetadata_none hwrites])
    obtain ⟨value,hvalue⟩ := isSome_iff_exists.mp hsome
    rw [← hflag j]
    exact runsReconciliation_congr (by rw [hown,heq]; simp [mergeMetadata,hvalue])
  | ledgers => rfl
  | identities => rfl
  | transactions => rfl

end Step

theorem set_phase (i j : Fin u.calls) (phase : UpdatePhase) : (s.set i phase).phase j = if j = i then phase else s.phase j :=
  update_apply ..

theorem Invariant.set (hinv : Invariant s) {i : Fin u.calls} {phase : UpdatePhase} (hopen : (s.phase i).isDone = false)
    (hphase : phase ≠ .succeeded)
    (hloaded : ∀ current, phase = .loaded current → u.kind ≠ .transactions ∧ ∃ row, u.rows = [row] ∧ Traced s row current) :
    Invariant (s.set i phase) := by
  have hsame : ∀ j, s.phase j = .succeeded ↔ (s.set i phase).phase j = .succeeded := by
    intro j
    rw [set_phase]
    split
    · rename_i hji
      subst hji
      refine ⟨fun h => ?_,fun h => absurd h hphase⟩
      rw [h] at hopen
      cases hopen
    · exact Iff.rfl
  refine ⟨hinv.rows.imp fun _ _ h => h.mono hsame,fun j current hj => ?_⟩
  have hold : u.kind ≠ .transactions ∧ ∃ row, u.rows = [row] ∧ Traced s row current := by
    rw [set_phase] at hj
    split at hj
    · exact hloaded current hj
    · exact hinv.loaded j current hj
  obtain ⟨hkind,row,hrow,htraced⟩ := hold
  exact ⟨hkind,row,hrow,htraced.mono fun k => (hsame k).mp⟩

theorem Invariant.write (hinv : Invariant s) {i : Fin u.calls} {rows : List Object}
    (hrows : List.Forall₂ (RowKept (UpdateState.mk rows (s.set i .succeeded).phase)) u.rows rows) :
    Invariant { s.set i .succeeded with rows := rows } := by
  refine ⟨hrows,fun j current hj => ?_⟩
  rw [set_phase] at hj
  split at hj
  · cases hj
  obtain ⟨hkind,row,hrow,htraced⟩ := hinv.loaded j current hj
  refine ⟨hkind,row,hrow,htraced.mono fun k hk => ?_⟩
  rw [set_phase]
  split
  · rfl
  · exact hk

theorem Invariant.step (hinv : Invariant s) (hlossless : u.kind = .transactions ∨ u.Harmless ∧ u.Unflagged) (h : UpdateStep u s t) :
    Invariant t := by
  have hmono := fun i => h.succeeded (i := i)
  cases h with
  | load i row hkind hphase hrow =>
    refine hinv.set (by rw [hphase]; rfl) nofun fun current hcurrent => ⟨hkind,?_⟩
    cases hcurrent
    have hrows := hinv.rows
    rw [hrow] at hrows
    obtain ⟨before,_,hkept,hnil,hu⟩ := List.forall₂_cons_right_iff.mp hrows
    cases hnil
    exact ⟨before,hu,hkept.traced⟩
  | store i current result hphase =>
    obtain ⟨hkind,row,hrow,htraced⟩ := hinv.loaded i current hphase
    obtain ⟨hharmless,hunflagged⟩ := hlossless.resolve_left hkind
    have hmem : row ∈ u.rows := hrow ▸ List.mem_singleton_self row
    have hrows := hinv.rows
    rw [hrow] at hrows
    obtain ⟨after,_,-,hnil,hs⟩ := List.forall₂_cons_left_iff.mp hrows
    cases hnil
    refine hinv.write ?_
    rw [hs,hrow]
    refine .cons ?_ .nil
    rw [stored_eq hunflagged hmem htraced]
    exact rowKept_store hharmless hmem htraced (hmono) (update_self ..)
  | check i _ hphase _ => exact hinv.set (by rw [hphase]; rfl) nofun nofun
  | merge i hphase =>
    refine hinv.write (List.forall₂_map_right_iff.mpr (hinv.rows.imp fun before after hkept => ?_))
    refine hkept.merge hmono (fun j hji hj => ?_) (update_self ..)
    rwa [set_phase,if_neg hji] at hj
  | fail i hphase => exact hinv.set hphase nofun nofun

theorem exists_two (u : Updates) (i j : Fin u.calls) : ∃ s, u.Reaches s ∧ s.rows = u.rows ∧
    ∀ k, s.phase k = if k = i ∨ k = j then .started else .failed := by
  have hfail : ∀ l : List (Fin u.calls), i ∉ l → j ∉ l → l.Nodup → ∃ s, u.Reaches s ∧ s.rows = u.rows ∧
      ∀ k, s.phase k = if k ∈ l then .failed else .started := by
    intro l hi hj hl
    induction l with
    | nil => exact ⟨u.initial,.refl,rfl,fun k => rfl⟩
    | cons m l ih =>
      rw [List.mem_cons,not_or] at hi hj
      obtain ⟨hm,hl⟩ := List.nodup_cons.mp hl
      obtain ⟨s,hreach,hrows,hphase⟩ := ih hi.2 hj.2 hl
      have hopen : s.phase m = .started := by rw [hphase,if_neg hm]
      refine ⟨s.set m .failed,hreach.tail (.fail m (by rw [hopen]; rfl)),hrows,fun k => ?_⟩
      rw [set_phase,hphase]
      by_cases hkm : k = m <;> simp [hkm]
  obtain ⟨s,hreach,hrows,hphase⟩ := hfail ((List.finRange u.calls).filter fun k => ¬ (k = i ∨ k = j)) (by simp) (by simp)
    ((List.nodup_finRange _).filter _)
  refine ⟨s,hreach,hrows,fun k => ?_⟩
  rw [hphase]
  by_cases hk : k = i ∨ k = j
  · rw [if_pos hk,if_neg (by simpa using hk.resolve_left)]
  · rw [if_neg hk,if_pos (by simpa using not_or.mp hk)]

variable {row : Object}

/-- Both calls load the row before one of them stores it: the second one to store overwrites the first. -/
theorem exists_overwritten (hkind : u.kind ≠ .transactions) (hrow : u.rows = [row]) {i j : Fin u.calls} (hij : i ≠ j)
    (result : GoValue) : ∃ s, u.Reaches s ∧ s.rows = [u.kind.stored result (mergeMetadata row (u.patch j))] ∧
      ∀ k, s.phase k = if k = i ∨ k = j then .succeeded else .failed := by
  obtain ⟨s,hreach,hrows,hphase⟩ := exists_two u i j
  rw [hrow] at hrows
  have hi : s.phase i = .started := by simp [hphase]
  have hj : s.phase j = .started := by simp [hphase]
  let s₁ := s.set i (.loaded row)
  have h₁ : UpdateStep u s s₁ := .load i row hkind hi hrows
  have hj₁ : s₁.phase j = .started := by rw [set_phase,if_neg hij.symm,hj]
  let s₂ := s₁.set j (.loaded row)
  have h₂ : UpdateStep u s₁ s₂ := .load j row hkind hj₁ hrows
  have hi₂ : s₂.phase i = .loaded row := by rw [set_phase,if_neg hij,set_phase,if_pos rfl]
  let s₃ : UpdateState u :=
    { s₂.set i .succeeded with rows := s₂.rows.map fun _ => u.kind.stored result (mergeMetadata row (u.patch i)) }
  have h₃ : UpdateStep u s₂ s₃ := .store i row result hi₂
  have hj₃ : s₃.phase j = .loaded row := by
    have : s₃.phase j = (s₂.set i .succeeded).phase j := rfl
    rw [set_phase,if_neg hij.symm,set_phase,if_pos rfl]
  refine ⟨_,(((hreach.tail h₁).tail h₂).tail h₃).tail (.store j row result hj₃),?_,fun k => ?_⟩
  · simp only [List.map_map,s₃,s₂,s₁,UpdateState.set,hrows]
    rfl
  · simp only [s₃,s₂,s₁,UpdateState.set,update_apply,hphase]
    by_cases hkj : k = j
    · simp [hkj]
    by_cases hki : k = i
    · simp [hki]
    · simp [hkj,hki]

theorem exists_alone (hkind : u.kind ≠ .transactions) (hrow : u.rows = [row]) (i : Fin u.calls) (result : GoValue) :
    ∃ s, u.Reaches s ∧ s.rows = [u.kind.stored result (mergeMetadata row (u.patch i))] ∧
      ∀ k, s.phase k = if k = i then .succeeded else .failed := by
  obtain ⟨s,hreach,hrows,hphase⟩ := exists_two u i i
  rw [hrow] at hrows
  have h₁ : UpdateStep u s (s.set i (.loaded row)) := .load i row hkind (by simp [hphase]) hrows
  have hi : (s.set i (.loaded row)).phase i = .loaded row := by rw [set_phase,if_pos rfl]
  refine ⟨_,(hreach.tail h₁).tail (.store i row result hi),?_,fun k => ?_⟩
  · simp only [UpdateState.set,hrows]
    rfl
  · simp only [UpdateState.set,update_apply,hphase]
    by_cases hki : k = i <;> simp [hki]

theorem not_kept_reconciled {i : Fin u.calls} {result : GoValue} (hi : s.phase i = .succeeded)
    (hflag : runsReconciliation (mergeMetadata row (u.patch i)) = true) :
    ¬ Kept s row (reconcileBalance result (mergeMetadata row (u.patch i))) := by
  intro hkept
  have hremoved : reconcileBalance result (mergeMetadata row (u.patch i)) "LEDGERFORGE_RUN_RECONCILIATION" = none := by
    simp [reconcileBalance,hflag]
  by_cases hwrites : (u.patch i "LEDGERFORGE_RUN_RECONCILIATION").isSome
  · obtain ⟨j,-,hsome,hvalue⟩ := hkept.written i _ hi hwrites
    rw [← hvalue,hremoved] at hsome
    cases hsome
  have hown : mergeMetadata row (u.patch i) "LEDGERFORGE_RUN_RECONCILIATION" = row "LEDGERFORGE_RUN_RECONCILIATION" :=
    mergeMetadata_none hwrites
  unfold runsReconciliation at hflag
  split at hflag
  · rename_i hvalue
    have hstored := hkept.stored "LEDGERFORGE_RUN_RECONCILIATION" (by rw [← hown,hvalue]; rfl)
    rw [hremoved] at hstored
    cases hstored
  · cases hflag

theorem Updates.Lossless.unflagged (hlossless : u.Lossless) : u.Unflagged := by
  intro hkind row hmem i
  have hne : u.kind ≠ .transactions := by rw [hkind]; nofun
  obtain ⟨row',hrow⟩ := List.length_eq_one_iff.mp (u.single hne)
  rw [hrow,List.mem_singleton] at hmem
  subst hmem
  by_contra hflag
  rw [Bool.not_eq_false] at hflag
  obtain ⟨s,hreach,hrows,hphase⟩ := exists_alone hne hrow i .nil
  have hkept := hlossless s hreach fun k => by
    rw [hphase]
    split <;> rfl
  rw [hrow,hrows,List.forall₂_cons,hkind] at hkept
  exact not_kept_reconciled (by rw [hphase,if_pos rfl]) hflag hkept.1

theorem Updates.Lossless.harmless (hlossless : u.Lossless) (hkind : u.kind ≠ .transactions) : u.Harmless := by
  intro row hmem i j hij key value hpatch
  have hunflagged := hlossless.unflagged
  obtain ⟨row',hrow⟩ := List.length_eq_one_iff.mp (u.single hkind)
  have hrow' := hmem
  rw [hrow,List.mem_singleton] at hrow'
  subst hrow'
  by_contra hnot
  rw [not_or] at hnot
  obtain ⟨hother,hbefore⟩ := hnot
  obtain ⟨s,hreach,hrows,hphase⟩ := exists_overwritten hkind hrow hij .nil
  have hkept := hlossless s hreach fun k => by
    rw [hphase]
    split <;> rfl
  have htraced : Traced s row row := fun _ => .inl rfl
  rw [hrow,hrows,List.forall₂_cons,stored_eq hunflagged hmem htraced] at hkept
  obtain ⟨k,hk,hsome,hvalue⟩ := hkept.1.written i key (by simp [hphase]) (by rw [hpatch]; rfl)
  rw [mergeMetadata_none hother] at hvalue
  have hki : k = i ∨ k = j := by
    by_contra hne
    rw [hphase,if_neg hne] at hk
    cases hk
  rcases hki with rfl | rfl
  · exact hbefore (hvalue.trans hpatch)
  · exact hother hsome

/-- Concurrent updates lose nothing exactly when the database merges them, or when no call can overwrite what another one
wrote and no flag is consumed. -/
theorem metadata_merges_lossless (u : Updates) : u.Lossless ↔ u.kind = .transactions ∨ u.Harmless ∧ u.Unflagged := by
  constructor
  · intro hlossless
    by_cases hkind : u.kind = .transactions
    · exact .inl hkind
    · exact .inr ⟨hlossless.harmless hkind,hlossless.unflagged⟩
  · intro hlossless s hreach _
    have hinv := Transitions.invariant (fun _ _ hinv hstep => hinv.step hlossless hstep) hreach (Invariant.initial u)
    exact hinv.rows.imp fun _ _ h => h.kept

/-- Two calls that write different keys of a balance without metadata. -/
def twoKeys : Updates where
  kind := .balances
  rows := [fun _ => none]
  calls := 2
  patch i key := if key = (if i.val = 0 then "a" else "b") then some (.string "x") else none
  single _ := rfl

/-- Both succeed, and the key of the first one is gone. -/
theorem first_key_lost : ∃ s, twoKeys.Reaches s ∧ (∀ i, s.phase i = .succeeded) ∧
    s.rows.map (fun row => (row "a",row "b")) = [(none,some (.string "x"))] := by
  obtain ⟨s,hreach,hrows,hphase⟩ := exists_overwritten (u := twoKeys) (by decide) rfl
    Fin.zero_ne_one .nil
  refine ⟨s,hreach,fun i => ?_,?_⟩
  · rw [hphase,if_pos]
    change Fin 2 at i
    change i = 0 ∨ i = 1
    omega
  · rw [hrows]
    rfl

end LedgerForge.Metadata
