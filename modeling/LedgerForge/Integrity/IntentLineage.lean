import LedgerForge.Library.Keyed
import LedgerForge.Library.Walks
import LedgerForge.Model.Transaction
import LedgerForge.Numeric.RatText

/-! # The intent lineage of the integrity check

Queued and scheduled intents can stand between a row and its economic parent. The check follows the parents of
every row through such intents, whatever the stored parents are, and keeps the identifiers that it has seen.
-/

namespace LedgerForge.Integrity

open List Walks Function Subset

/-- The columns of a transaction that the loop reads. The controls are those that were decoded from the row. -/
structure ChainRow where
  transactionID : String
  parentTransaction : String
  status : Status
  source : String
  destination : String
  currency : String
  precision : String
  amount : String
  preciseAmount : String
  queueAction : QueueAction
  controls : ExecutionControls
deriving DecidableEq

structure Issue where
  kind : String
  balanceID : String
  transactionID : String
  message : String
deriving DecidableEq

def equalNumber (a b : String) : Bool :=
  match RatText.setString a,RatText.setString b with
  | some left,some right => left = right
  | _,_ => false

namespace ChainRow

def IsIntent (r : ChainRow) : Prop := r.status = .queued ∨ r.status = .scheduled
deriving Decidable

def Terminal (r : ChainRow) : Prop := r.status = .applied ∨ r.status = .inflight ∨ r.status = .void ∨ r.status = .rejected
deriving Decidable

def Differs (r intent : ChainRow) : Prop :=
  intent.source ≠ r.source ∨ intent.destination ≠ r.destination ∨ intent.currency ≠ r.currency ∨
    equalNumber intent.precision r.precision = false ∨ equalNumber intent.amount r.amount = false ∨
    equalNumber intent.preciseAmount r.preciseAmount = false
deriving Decidable

end ChainRow

/-- What the loop writes: issues, completed intents with the rows that complete them, and resolved parents. -/
structure Evidence where
  issues : List Issue
  completedIntents : List String
  terminalCompletions : List (String × String)
  effectiveParents : String → Option ChainRow
  children : String → List ChainRow

def inconsistentChild (id message : String) : Issue := ⟨"inconsistent_child","",id,message⟩

def cycleIssue (id : String) : Issue := inconsistentChild id "cycle in intent parent lineage"

def Evidence.add (e : Evidence) (issue : Issue) : Evidence := { e with issues := e.issues ++ [issue] }

def Evidence.attach (e : Evidence) (r parent : ChainRow) : Evidence := { e with
  effectiveParents := update e.effectiveParents r.transactionID (some parent)
  children := update e.children parent.transactionID (e.children parent.transactionID ++ [r]) }

section Snapshot

variable (rows : List ChainRow)

/-- The last row with an identifier. -/
def rowOf (id : String) : Option ChainRow := rows.reverse.find? (·.transactionID = id)

def controlsOf (id : String) : Option ExecutionControls := (rowOf rows id).map ChainRow.controls

/-- The row that the parent of a row refers to, unless it is a group. -/
def parentOf (r : ChainRow) : Option ChainRow :=
  if (controlsOf rows r.transactionID).map (·.parentKind) = some .group then none else rowOf rows r.parentTransaction

/-- The body of the loop for a row and an intent that was not seen before. -/
def Evidence.visit (e : Evidence) (r parent : ChainRow) : Evidence :=
  let e := if r.Terminal then { e with
      completedIntents := e.completedIntents.insert parent.transactionID
      terminalCompletions := e.terminalCompletions.insert (parent.transactionID,r.transactionID) } else e
  let e := if r.status ≠ .rejected ∧ r.Differs parent then
      e.add (inconsistentChild r.transactionID "terminal row differs from its persisted intent") else e
  match controlsOf rows parent.transactionID with
  | none => e
  | some controls =>
    let expected : Status := if controls.inflight ∧ parent.queueAction ≠ .commit then .inflight else .applied
    if r.Terminal ∧ r.status ≠ .rejected ∧ controls.economicVersion = 1 ∧ r.status ≠ expected then
      e.add (inconsistentChild r.transactionID "terminal status differs from immutable execution intent")
    else e

/-- The loop for a row: where it stops and what it has written. Out of fuel it has not finished. -/
def resolve (r : ChainRow) : ℕ → ChainRow → List String → Evidence → Option (ChainRow × Evidence)
  | 0,_,_,_ => none
  | fuel+1,parent,seen,e =>
    if parent.IsIntent then
      if parent.transactionID ∈ seen then some (parent,e.add (cycleIssue r.transactionID))
      else match parentOf rows parent with
        | none => some (parent,e.visit rows r parent)
        | some next => resolve r fuel next (parent.transactionID :: seen) (e.visit rows r parent)
    else some (parent,e)

def resolveRow (fuel : ℕ) (e : Evidence) (r : ChainRow) : Option Evidence :=
  match parentOf rows r with
  | none => some e
  | some first => (resolve rows r fuel first [r.transactionID] e).map fun (parent,e) => e.attach r parent

/-- An intent that more than one terminal row completes is reported; the order of these reports is not fixed. -/
def multipleCompletions (e : Evidence) : List Issue :=
  ((e.terminalCompletions.map Prod.fst).dedup.filter fun intent =>
      1 < (e.terminalCompletions.filter (·.1 = intent)).length).map
    (inconsistentChild · "economic intent has multiple terminal completions")

def resolveParents (fuel : ℕ) : Option Evidence :=
  (rows.foldlM (resolveRow rows fuel) ⟨[],[],[],fun _ => none,fun _ => []⟩).map fun e =>
    { e with issues := e.issues ++ multipleCompletions e }

/-- The chain goes on from an intent to its parent. -/
def next (p : ChainRow) : Option ChainRow := if p.IsIntent then parentOf rows p else none

/-- The chain of intents from a row comes back to an identifier that was seen, or reaches an intent above itself. -/
def Returns (seen : List String) (p : ChainRow) : Prop :=
  ∃ q, Reaches (next rows) p q ∧ q.IsIntent ∧ (q.transactionID ∈ seen ∨ Follows (next rows) q q)

/-- The chain of intents above a row comes back to the row, or to an intent that it has passed. -/
def RunsIntoCycle (r : ChainRow) : Prop := ∃ first, parentOf rows r = some first ∧ Returns rows [r.transactionID] first

end Snapshot

variable {rows : List ChainRow} {r p q : ChainRow} {seen : List String} {id : String} {e e' e'' : Evidence} {cyclic : Prop}

theorem parentOf_some (h : parentOf rows r = some p) : p ∈ rows ∧ rowOf rows p.transactionID = some p := by
  unfold parentOf at h
  split at h
  · cases h
  have hid := Keyed.find_key h
  rw [← hid] at h
  exact ⟨mem_reverse.mp (Keyed.find_mem h),h⟩

theorem isIntent_of_leads (h : next rows p = some q) : p.IsIntent ∧ parentOf rows p = some q := by
  unfold next at h
  split at h
  · exact ⟨‹_›,h⟩
  · cases h

theorem rowOf_of_reaches (hp : rowOf rows p.transactionID = some p) (h : Reaches (next rows) p q) :
    rowOf rows q.transactionID = some q := by
  rcases h.cases_tail with rfl | ⟨x,-,hx⟩
  · exact hp
  · exact (parentOf_some (isIntent_of_leads hx).2).2

theorem not_returns_of_end (hend : next rows p = none) (hunseen : p.IsIntent → p.transactionID ∉ seen) :
    ¬ Returns rows seen p := by
  rintro ⟨q,hreach,hintent,hback⟩
  rcases hreach.cases_head with rfl | ⟨x,hx,-⟩
  · rcases hback with hseen | hcycle
    · exact hunseen hintent hseen
    obtain ⟨x,hx,-⟩ := Relation.TransGen.head'_iff.mp hcycle
    cases hend.symm.trans hx
  · cases hend.symm.trans hx

/-- An intent that was passed is seen from then on: coming back to it is going round. -/
theorem returns_step (hp : rowOf rows p.transactionID = some p) (hunseen : p.transactionID ∉ seen)
    (hnext : next rows p = some q) : Returns rows seen p ↔ Returns rows (p.transactionID :: seen) q := by
  constructor
  · rintro ⟨x,hreach,hintent,hback⟩
    rcases hreach.cases_head with rfl | ⟨y,hy,hrest⟩
    · obtain ⟨y,hy,hround⟩ := Relation.TransGen.head'_iff.mp (hback.resolve_left hunseen)
      cases hnext.symm.trans hy
      exact ⟨_,hround,hintent,.inl mem_cons_self⟩
    · cases hnext.symm.trans hy
      exact ⟨x,hrest,hintent,hback.imp_left (mem_cons_of_mem _)⟩
  · rintro ⟨x,hreach,hintent,hback⟩
    rcases hback with hseen | hcycle
    · rcases mem_cons.mp hseen with heq | hseen
      · have hx := rowOf_of_reaches hp (.head hnext hreach)
        rw [heq,hp] at hx
        cases hx
        exact ⟨p,.refl,hintent,.inr (.head' hnext hreach)⟩
      · exact ⟨x,.head hnext hreach,hintent,.inl hseen⟩
    · exact ⟨x,.head hnext hreach,hintent,.inr hcycle⟩

/-- Only a cycle adds the issue of a cycle, and the loop leaves the resolved parents alone. -/
structure Grows (r : ChainRow) (cyclic : Prop) (e e' : Evidence) : Prop where
  issues : ∀ id, cycleIssue id ∈ e'.issues ↔ cycleIssue id ∈ e.issues ∨ id = r.transactionID ∧ cyclic
  children : e'.children = e.children

theorem Grows.refl : Grows r False e e := ⟨fun id => by simp,rfl⟩

theorem Grows.trans (h : Grows r False e e') (h' : Grows r cyclic e' e'') : Grows r cyclic e e'' :=
  ⟨fun id => by rw [h'.issues,h.issues,and_false,or_false],h'.children.trans h.children⟩

theorem Grows.cycle : Grows r True e (e.add (cycleIssue r.transactionID)) :=
  ⟨fun id => by simp [Evidence.add,cycleIssue,inconsistentChild],rfl⟩

theorem Grows.add {message : String} (hm : message ≠ "cycle in intent parent lineage") :
    Grows r False e (e.add (inconsistentChild id message)) :=
  ⟨fun _ => by simp [Evidence.add,cycleIssue,inconsistentChild,hm.symm],rfl⟩

theorem Grows.visit : Grows r False e (e.visit rows r p) := by
  unfold Evidence.visit
  extract_lets completed differing
  have hcompleted : Grows r False e completed := by
    unfold completed
    split
    · exact ⟨fun id => by simp,rfl⟩
    · exact .refl
  have hdiffering : Grows r False e differing := by
    unfold differing
    split
    · exact hcompleted.trans (.add (by decide))
    · exact hcompleted
  split
  · exact hdiffering
  extract_lets expected
  split
  · exact hdiffering.trans (.add (by decide))
  · exact hdiffering

/-- The loop ends when it has seen all identifiers, at the latest. -/
theorem resolve_spec {k : ℕ} (hp : rowOf rows p.transactionID = some p) (hmem : p ∈ rows) (hseen : seen.Nodup)
    (hsub : seen ⊆ rows.map ChainRow.transactionID) (hk : rows.length < k+seen.length) : ∃ last e',
      (∀ n, resolve rows r (n+k) p seen e = some (last,e')) ∧ Grows r (Returns rows seen p) e e' ∧
      (¬ Returns rows seen p → Ends (next rows) p last) := by
  induction k generalizing p seen e with
  | zero =>
    have hle := (subperm_of_subset hseen hsub).length_le
    rw [length_map] at hle
    omega
  | succ k ih =>
    by_cases hintent : p.IsIntent
    swap
    · have hend : next rows p = none := if_neg hintent
      have hreturns : ¬ Returns rows seen p := not_returns_of_end hend fun h => absurd h hintent
      simp only [hreturns]
      exact ⟨p,e,fun n => by rw [← add_assoc,resolve,if_neg hintent],.refl,fun _ => ⟨.refl,hend⟩⟩
    by_cases hin : p.transactionID ∈ seen
    · have hreturns : Returns rows seen p := ⟨p,.refl,hintent,.inl hin⟩
      simp only [hreturns]
      exact ⟨p,_,fun n => by rw [← add_assoc,resolve,if_pos hintent,if_pos hin],.cycle,fun h => absurd trivial h⟩
    have hnext : next rows p = parentOf rows p := if_pos hintent
    cases hparent : parentOf rows p with
    | none =>
      rw [hparent] at hnext
      have hreturns : ¬ Returns rows seen p := not_returns_of_end hnext fun _ => hin
      simp only [hreturns]
      exact ⟨p,_,fun n => by rw [← add_assoc,resolve,if_pos hintent,if_neg hin,hparent],.visit,fun _ => ⟨.refl,hnext⟩⟩
    | some q =>
      rw [hparent] at hnext
      obtain ⟨hq,hqrow⟩ := parentOf_some hparent
      obtain ⟨last,e',hrun,hgrows,hends⟩ := @ih q (p.transactionID :: seen) (e.visit rows r p) hqrow hq
        (nodup_cons.mpr ⟨hin,hseen⟩) (cons_subset.mpr ⟨mem_map_of_mem hmem,hsub⟩) (by rw [length_cons]; omega)
      rw [returns_step hp hin hnext]
      refine ⟨last,e',fun n => ?_,Grows.visit.trans hgrows,fun h => ?_⟩
      · rw [← add_assoc,resolve,if_pos hintent,if_neg hin,hparent]
        exact hrun n
      · obtain ⟨hreach,hend⟩ := hends h
        exact ⟨.head hnext hreach,hend⟩

/-- A row whose chain ends is a child of the row at the end. -/
def Placed (rows : List ChainRow) (e : Evidence) (r : ChainRow) : Prop :=
  ∀ first, parentOf rows r = some first → ¬ RunsIntoCycle rows r →
    ∃ last, Ends (next rows) first last ∧ r ∈ e.children last.transactionID

theorem resolveRow_spec (hr : r ∈ rows) (e : Evidence) : ∃ e',
    (∀ fuel, rows.length < fuel → resolveRow rows fuel e r = some e') ∧
      (∀ id, cycleIssue id ∈ e'.issues ↔ cycleIssue id ∈ e.issues ∨ id = r.transactionID ∧ RunsIntoCycle rows r) ∧
      (∀ id, e.children id ⊆ e'.children id) ∧ Placed rows e' r := by
  cases hparent : parentOf rows r with
  | none =>
    have hcycle : ¬ RunsIntoCycle rows r := by
      rintro ⟨first,hfirst,-⟩
      cases hparent.symm.trans hfirst
    refine ⟨e,fun fuel _ => by rw [resolveRow,hparent],fun id => by simp [hcycle],fun id => refl _,?_⟩
    intro first hfirst
    cases hparent.symm.trans hfirst
  | some first =>
    obtain ⟨hmem,hrow⟩ := parentOf_some hparent
    obtain ⟨last,e',hrun,hgrows,hends⟩ := @resolve_spec rows r first [r.transactionID] e rows.length hrow hmem
      (nodup_singleton _) (cons_subset.mpr ⟨mem_map_of_mem hr,nil_subset _⟩) (Nat.lt_succ_self _)
    have hcycle : RunsIntoCycle rows r ↔ Returns rows [r.transactionID] first := by
      simp [RunsIntoCycle,hparent]
    refine ⟨e'.attach r last,fun fuel hfuel => ?_,fun id => ?_,fun id => ?_,fun first' hfirst hno => ?_⟩
    · obtain ⟨n,rfl⟩ := Nat.exists_eq_add_of_le' hfuel.le
      rw [resolveRow,hparent]
      simp only [hrun,Option.map_some]
    · rw [hcycle]
      exact hgrows.issues id
    · simp only [Evidence.attach,hgrows.children,update_apply]
      split
      · rename_i heq
        exact heq ▸ subset_append_left _ _
      · exact refl _
    · cases hparent.symm.trans hfirst
      exact ⟨last,hends (hcycle.not.mp hno),by simp [Evidence.attach]⟩

theorem foldlM_resolveRow {l : List ChainRow} (hl : l ⊆ rows) (e : Evidence) : ∃ e',
    (∀ fuel, rows.length < fuel → l.foldlM (resolveRow rows fuel) e = some e') ∧
      (∀ id, cycleIssue id ∈ e'.issues ↔
        cycleIssue id ∈ e.issues ∨ ∃ r ∈ l, r.transactionID = id ∧ RunsIntoCycle rows r) ∧
      (∀ id, e.children id ⊆ e'.children id) ∧ ∀ r ∈ l, Placed rows e' r := by
  induction l generalizing e with
  | nil => exact ⟨e,fun _ _ => rfl,by simp,fun _ => refl _,by simp⟩
  | cons r l ih =>
    obtain ⟨hr,hl⟩ := cons_subset.mp hl
    obtain ⟨e₁,hrow,hissues,hkept,hplaced⟩ := resolveRow_spec hr e
    obtain ⟨e₂,hrest,hissues',hkept',hplaced'⟩ := ih hl e₁
    refine ⟨e₂,fun fuel hfuel => ?_,fun id => ?_,fun id => Subset.trans (hkept id) (hkept' id),?_⟩
    · rw [foldlM_cons,hrow fuel hfuel]
      exact hrest fuel hfuel
    · rw [hissues',hissues,or_assoc,exists_mem_cons_iff,eq_comm]
    · rw [forall_mem_cons]
      refine ⟨fun first hfirst hno => ?_,hplaced'⟩
      obtain ⟨last,hends,hchild⟩ := hplaced first hfirst hno
      exact ⟨last,hends,hkept' _ hchild⟩

/-- The resolution of all rows finishes. It reports a cycle for the rows whose chain of intents runs into one, and every
other row with a parent ends up below the end of its chain. -/
theorem intent_lineage_resolved (rows : List ChainRow) : ∃ e,
    (∀ fuel, rows.length < fuel → resolveParents rows fuel = some e) ∧
      (∀ id, cycleIssue id ∈ e.issues ↔ ∃ r ∈ rows, r.transactionID = id ∧ RunsIntoCycle rows r) ∧
      ∀ r ∈ rows, Placed rows e r := by
  obtain ⟨e,hrun,hissues,-,hplaced⟩ := foldlM_resolveRow (refl rows) ⟨[],[],[],fun _ => none,fun _ => []⟩
  refine ⟨{ e with issues := e.issues ++ multipleCompletions e },fun fuel hfuel => ?_,fun id => ?_,hplaced⟩
  · rw [resolveParents,hrun fuel hfuel]
    rfl
  have hother : cycleIssue id ∉ multipleCompletions e := by
    simp [multipleCompletions,cycleIssue,inconsistentChild]
  simp only [mem_append,hother,or_false,hissues,not_mem_nil,false_or]

/-- With unique identifiers a row runs into a cycle when its chain reaches an intent above itself. -/
theorem runsIntoCycle_iff (hids : (rows.map ChainRow.transactionID).Nodup) (hr : r ∈ rows) : RunsIntoCycle rows r ↔
    ∃ first p, parentOf rows r = some first ∧ Reaches (next rows) first p ∧ Follows (next rows) p p := by
  constructor
  · rintro ⟨first,hfirst,p,hreach,hintent,hid | hcycle⟩
    · have hp := rowOf_of_reaches (parentOf_some hfirst).2 hreach
      have hown : rowOf rows r.transactionID = some r :=
        Keyed.find_of_mem (by rwa [map_reverse,nodup_reverse]) (mem_reverse.mpr hr)
      rw [mem_singleton.mp hid,hown] at hp
      cases hp
      exact ⟨first,r,hfirst,hreach,.head' ((if_pos hintent).trans hfirst) hreach⟩
    · exact ⟨first,p,hfirst,hreach,hcycle⟩
  · rintro ⟨first,p,hfirst,hreach,hcycle⟩
    obtain ⟨q,hq,-⟩ := Relation.TransGen.head'_iff.mp hcycle
    exact ⟨first,hfirst,p,hreach,(isIntent_of_leads hq).1,.inr hcycle⟩

end LedgerForge.Integrity
