import Mathlib.Tactic

/-! # Computations that stop anywhere

A computation changes a state through a sequence of calls. It may be given a number of calls after which it stops, with
everything it has stored so far in place; without that number it runs to its end.
-/

namespace LedgerForge

open Function

/-- A state, and how many calls still succeed. -/
structure World (σ : Type) where
  state : σ
  calls : Option ℕ

def Attempt (σ α : Type) := World σ → Except String α × World σ

namespace Attempt

variable {σ α β : Type}

instance : Monad (Attempt σ) where
  pure a := fun w => (.ok a,w)
  bind p f := fun w =>
    match p w with
    | (.ok a,w') => f a w'
    | (.error e,w') => (.error e,w')

def fail (e : String) : Attempt σ α := fun w => (.error e,w)

def call : Attempt σ Unit := fun w =>
  match w.calls with
  | none => (.ok (),w)
  | some 0 => (.error "call failed",w)
  | some (n+1) => (.ok (),{ w with calls := some n })

def read : Attempt σ σ := fun w => (.ok w.state,w)

def write (f : σ → σ) : Attempt σ Unit := fun w => (.ok (),{ w with state := f w.state })

/-- Say what failed. -/
def annotate (text : String) (p : Attempt σ α) : Attempt σ α := fun w =>
  match p w with
  | (.ok a,w') => (.ok a,w')
  | (.error e,w') => (.error (text ++ ": " ++ e),w')

def run (p : Attempt σ α) (s : σ) (calls : Option ℕ) : Except String α × σ := ((p ⟨s,calls⟩).1,(p ⟨s,calls⟩).2.state)

variable {p : Attempt σ α} {f : α → Attempt σ β} {s : σ} {w w' : World σ} {a : α} {e : String}

@[simp] theorem pure_apply (a : α) (w : World σ) : (pure a : Attempt σ α) w = (.ok a,w) := rfl

theorem bind_of_ok (h : p w = (.ok a,w')) : (p >>= f) w = f a w' := by
  change (match p w with | (.ok a,w') => f a w' | (.error e,w') => (.error e,w')) = _
  rw [h]

theorem bind_of_error (h : p w = (.error e,w')) : (p >>= f) w = (.error e,w') := by
  change (match p w with | (.ok a,w') => f a w' | (.error e,w') => (.error e,w')) = _
  rw [h]

@[simp] theorem call_bind (f : Unit → Attempt σ β) (s : σ) : (call >>= f) ⟨s,none⟩ = f () ⟨s,none⟩ := rfl

@[simp] theorem read_bind (f : σ → Attempt σ β) (w : World σ) : (read >>= f) w = f w.state w := rfl

theorem annotate_of_ok {text : String} (h : p w = (.ok a,w')) : annotate text p w = (.ok a,w') := by
  rw [annotate,h]

theorem annotate_of_error {text : String} (h : p w = (.error e,w')) :
    annotate text p w = (.error (text ++ ": " ++ e),w') := by
  rw [annotate,h]

/-- Whenever the first computation succeeds, the second one, run to its end, does the same. -/
def Completes (p q : Attempt σ α) : Prop :=
  ∀ w a w', p w = (.ok a,w') → q ⟨w.state,none⟩ = (.ok a,⟨w'.state,none⟩)

namespace Completes

variable {q : Attempt σ α} {g : α → Attempt σ β}

theorem pure (a : α) : Completes (Pure.pure a : Attempt σ α) (Pure.pure a) := by
  intro w b w' h
  cases h
  rfl

theorem fail (e : String) : Completes (Attempt.fail e : Attempt σ α) q := by
  intro w a w' h
  cases h

theorem call : Completes (Attempt.call : Attempt σ Unit) Attempt.call := by
  rintro ⟨s,calls⟩ a w' h
  rcases calls with _ | _ | n <;> cases h <;> rfl

theorem read : Completes (Attempt.read : Attempt σ σ) Attempt.read := by
  intro w a w' h
  cases h
  rfl

theorem write (u : σ → σ) : Completes (Attempt.write u) (Attempt.write u) := by
  intro w a w' h
  cases h
  rfl

theorem bind (hp : Completes p q) (hf : ∀ a, Completes (f a) (g a)) : Completes (p >>= f) (q >>= g) := by
  intro w b w' h
  cases hw : p w with
  | mk r w₁ =>
    cases r with
    | error e =>
      rw [bind_of_error hw] at h
      cases h
    | ok a =>
      rw [bind_of_ok hw] at h
      exact (bind_of_ok (hp w a w₁ hw)).trans (hf a w₁ b w' h)

theorem annotate {text : String} (hp : Completes p q) : Completes (Attempt.annotate text p) (Attempt.annotate text q) := by
  intro w a w' h
  cases hw : p w with
  | mk r w₁ =>
    cases r with
    | error e =>
      rw [annotate_of_error hw] at h
      cases h
    | ok b =>
      rw [annotate_of_ok hw] at h
      cases h
      exact annotate_of_ok (hp w a w' hw)

end Completes

end Attempt

def draw {ι : Type} (cap : ι → ℤ) : List ι → ℤ → List (ι × ℤ)
  | [], _ => []
  | i :: l, amount =>
    if amount ≤ 0 then []
    else if min amount (cap i) ≤ 0 then draw cap l amount
    else (i,min amount (cap i)) :: draw cap l (amount-min amount (cap i))

namespace Draw

variable {ι : Type} {cap cap' : ι → ℤ} {i : ι} {l : List ι} {amount : ℤ}

theorem draw_of_nonpos (h : amount ≤ 0) : draw cap l amount = [] := by
  cases l with
  | nil => rfl
  | cons i l => simp [draw,h]

theorem draw_skip (h : cap i ≤ 0) : draw cap (i :: l) amount = draw cap l amount := by
  by_cases hamount : amount ≤ 0
  · rw [draw_of_nonpos hamount,draw_of_nonpos hamount]
  · simp [draw,hamount,h]

theorem draw_take (ha : 0 < amount) (hc : 0 < cap i) :
    draw cap (i :: l) amount = (i,min amount (cap i)) :: draw cap l (amount-min amount (cap i)) := by
  simp [draw,ha.not_ge,hc.not_ge]

theorem draw_congr (h : ∀ i ∈ l, cap i = cap' i) : draw cap l amount = draw cap' l amount := by
  induction l generalizing amount with
  | nil => rfl
  | cons i l ih =>
    rw [List.forall_mem_cons] at h
    simp only [draw,h.1]
    rw [ih h.2,ih h.2]

theorem draw_resume [DecidableEq ι] (hn : l.Nodup) {taken : ℤ} {rest : List (ι × ℤ)}
    (h : draw cap l amount = (i,taken) :: rest) :
    draw (update cap i (cap i-taken)) l (amount-taken) = rest ∧ i ∈ l ∧ 0 < taken ∧
      taken = min amount (cap i) := by
  induction l with
  | nil => cases h
  | cons k l ih =>
    obtain ⟨hk,hl⟩ := List.nodup_cons.mp hn
    by_cases hamount : amount ≤ 0
    · rw [draw_of_nonpos hamount] at h
      cases h
    by_cases hcap : cap k ≤ 0
    · rw [draw_skip hcap] at h
      obtain ⟨hrest,hi,htaken⟩ := ih hl h
      have hne : k ≠ i := fun he => hk (he ▸ hi)
      refine ⟨?_,List.mem_cons_of_mem k hi,htaken⟩
      rw [draw_skip (by rwa [update_of_ne hne]),hrest]
    · rw [draw_take (not_le.mp hamount) (not_le.mp hcap)] at h
      obtain ⟨⟨rfl,rfl⟩,rfl⟩ := And.imp_left Prod.mk.inj (List.cons.inj h)
      refine ⟨?_,List.mem_cons_self,by omega,rfl⟩
      have hrest : draw (update cap k (cap k-min amount (cap k))) l (amount-min amount (cap k)) =
          draw cap l (amount-min amount (cap k)) :=
        draw_congr fun i hi => update_of_ne (ne_of_mem_of_not_mem hi hk) _ _
      -- either the source is used up and skipped, or nothing is left to take
      rcases le_total amount (cap k) with hle | hle
      · rw [draw_of_nonpos (by omega),draw_of_nonpos (by omega)]
      · rw [draw_skip (by rw [update_self]; omega),hrest]

end Draw

end LedgerForge
