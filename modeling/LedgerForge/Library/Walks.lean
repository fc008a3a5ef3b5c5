import Mathlib.Tactic

/-! # Bounded walks

A partial function leads from each point to at most one next point. A walk of bounded length lists the points it
passes.
-/

namespace LedgerForge.Walks

open Relation

variable {α : Type*} (next : α → Option α)

def Leads (a b : α) : Prop := next a = some b

def Reaches : α → α → Prop := ReflTransGen (Leads next)

def Follows : α → α → Prop := TransGen (Leads next)

def Ends (a b : α) : Prop := Reaches next a b ∧ next b = none

def walk : ℕ → α → List α
  | 0, a => [a]
  | n+1, a => a :: (next a).elim [] (walk n)

variable {next} {a b c : α} {n : ℕ}

theorem walk_ne_nil (n : ℕ) (a : α) : walk next n a ≠ [] := by
  cases n <;> exact List.cons_ne_nil _ _

theorem mem_of_reaches (hn : (walk next n a).length ≤ n) (h : Reaches next a b) : b ∈ walk next n a := by
  induction n generalizing a with
  | zero => exact absurd (List.length_eq_zero_iff.mp (Nat.le_zero.mp hn)) (walk_ne_nil 0 a)
  | succ n ih =>
    rcases h.cases_head with rfl | ⟨x,hx,hrest⟩
    · exact List.mem_cons_self
    have hx' : next a = some x := hx
    rw [walk,hx'] at hn
    rw [walk,hx']
    exact List.mem_cons_of_mem _ (ih (Nat.le_of_succ_le_succ hn) hrest)

theorem ends_getLast (hn : (walk next n a).length ≤ n) : Ends next a ((walk next n a).getLast (walk_ne_nil n a)) := by
  induction n generalizing a with
  | zero => exact absurd (List.length_eq_zero_iff.mp (Nat.le_zero.mp hn)) (walk_ne_nil 0 a)
  | succ n ih =>
    cases hnext : next a with
    | none =>
      have hwalk : walk next (n+1) a = [a] := by rw [walk,hnext,Option.elim_none]
      have hlast : (walk next (n+1) a).getLast (walk_ne_nil (n+1) a) = a := by simp only [hwalk,List.getLast_singleton]
      rw [hlast]
      exact ⟨.refl,hnext⟩
    | some x =>
      have hwalk : walk next (n+1) a = a :: walk next n x := by rw [walk,hnext,Option.elim_some]
      rw [hwalk] at hn
      obtain ⟨hreach,hend⟩ := ih (Nat.le_of_succ_le_succ hn)
      have hlast : (walk next (n+1) a).getLast (walk_ne_nil (n+1) a) = (walk next n x).getLast (walk_ne_nil n x) := by
        simp only [hwalk,List.getLast_cons (walk_ne_nil n x)]
      rw [hlast]
      exact ⟨.head hnext hreach,hend⟩

theorem length_walk_eq_one : (walk next (n+1) a).length = 1 ↔ next a = none := by
  cases hnext : next a with
  | none => simp [walk,hnext]
  | some x => simp [walk,hnext,walk_ne_nil]

theorem Ends.unique (hb : Ends next a b) (hc : Ends next a c) : b = c := by
  have hstop : ∀ {x y : α}, next x = none → Reaches next x y → x = y := by
    intro x y hx hxy
    rcases hxy.cases_head with rfl | ⟨z,hz,-⟩
    · rfl
    have hz' : next x = some z := hz
    rw [hx] at hz'
    cases hz'
  have hdet : Relator.RightUnique (Leads next) := fun x y z hy hz => Option.some.inj (hy.symm.trans hz)
  rcases ReflTransGen.total_of_right_unique hdet hb.1 hc.1 with h | h
  · exact hstop hb.2 h
  · exact (hstop hc.2 h).symm

theorem Follows.ends (h : Follows next a b) (hb : Ends next b c) : Ends next a c := ⟨h.to_reflTransGen.trans hb.1,hb.2⟩

theorem Ends.of_leads (h : Ends next a c) (hab : next a = some b) : Ends next b c := by
  obtain ⟨hreach,hend⟩ := h
  rcases hreach.cases_head with rfl | ⟨x,hx,hrest⟩
  · rw [hab] at hend
    cases hend
  · cases hab.symm.trans hx
    exact ⟨hrest,hend⟩

end LedgerForge.Walks
