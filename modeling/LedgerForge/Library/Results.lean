import Mathlib.Tactic

/-! # Computations that may fail

A successful sequence of fallible steps is taken apart step by step. Checks over a list succeed exactly when
every element passes.
-/

namespace LedgerForge

open Except

theorem bind_ok {ε α β : Type} {x : Except ε α} {f : α → Except ε β} {b : β}
    (h : (x >>= f) = .ok b) : ∃ a, x = .ok a ∧ f a = .ok b := by
  cases x with
  | error e => cases h
  | ok a => exact ⟨a,rfl,h⟩

theorem ok_bind {ε α β : Type} (a : α) (f : α → Except ε β) : (ok a >>= f) = f a := rfl

variable {ε α : Type} {c : Prop} [Decidable c] {e : ε} {x : Except ε α} {a : α}

theorem ok_of_guard (h : (if c then .error e else x) = .ok a) : ¬ c ∧ x = .ok a := by
  split at h
  · cases h
  · exact ⟨‹_›,h⟩

theorem ok_of_check (h : (if c then x else .error e) = .ok a) : c ∧ x = .ok a := by
  split at h
  · exact ⟨‹_›,h⟩
  · cases h

theorem exists_ok (h : x.toOption.isSome) : ∃ a, x = .ok a := by
  cases x with
  | error e => cases h
  | ok a => exact ⟨a,rfl⟩

theorem bind_error {β : Type} {f : α → Except ε β}
    (h : (x >>= f) = .error e) : x = .error e ∨ ∃ a, x = .ok a ∧ f a = .error e := by
  cases x with
  | error e' => exact .inl (congrArg error (error.inj h))
  | ok a => exact .inr ⟨a,rfl,h⟩

theorem map_ok {β : Type} {f : α → β} {b : β} (h : x.map f = .ok b) :
    ∃ a, x = .ok a ∧ b = f a := by
  cases x with
  | error e => cases h
  | ok a => exact ⟨a,rfl,(ok.inj h).symm⟩

namespace Results

/-- Check the elements in order and report the first failure. -/
def checkAll (check : α → Except ε Unit) : List α → Except ε Unit
  | [] => .ok ()
  | x :: xs => do
    check x
    checkAll check xs

theorem checkAll_ok {check : α → Except ε Unit} {l : List α} :
    checkAll check l = .ok () ↔ ∀ x ∈ l, check x = .ok () := by
  induction l with
  | nil => simp [checkAll]
  | cons x xs ih =>
    rw [checkAll,List.forall_mem_cons,← ih]
    constructor
    · intro h
      obtain ⟨_,hx,hxs⟩ := bind_ok h
      exact ⟨hx,hxs⟩
    · rintro ⟨hx,hxs⟩
      rw [hx]
      exact hxs

end Results
end LedgerForge
