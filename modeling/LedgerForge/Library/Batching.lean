import Mathlib.Tactic

/-! # Work shared by finitely many workers

Totals over the workers after one of them has moved, and how many batches they can need for what they have taken.
-/

namespace LedgerForge.Batching

open Finset Function Fintype

section Sums

variable {ι M : Type*} [Fintype ι] [DecidableEq ι] [AddCommMonoid M]

theorem sum_update_add (f : ι → M) (i : ι) (x : M) : (∑ j, update f i x j)+f i = (∑ j, f j)+x := by
  rw [sum_update_of_mem (mem_univ i),← add_sum_erase _ f (mem_univ i),
    sdiff_singleton_eq_erase]
  abel

theorem sum_update₂ {α β : Type*} (g : α → β → M) (a : ι → α) (b : ι → β) (i : ι) (x : α) (y : β) :
    (∑ j, g (update a i x j) (update b i y j))+g (a i) (b i) = (∑ j, g (a j) (b j))+g x y := by
  have hupdate : (fun j => g (update a i x j) (update b i y j)) = update (fun j => g (a j) (b j)) i (g x y) := by
    funext j
    by_cases hj : j = i
    · subst hj
      simp
    · simp [update_of_ne hj]
  have hsum := sum_update_add (fun j => g (a j) (b j)) i (g x y)
  rwa [← hupdate] at hsum

end Sums

variable {ι : Type*} [Fintype ι]

theorem sum_div_le (t : ι → ℕ) {k : ℕ} (hk : 0 < k) : ∑ i, t i/k ≤ (∑ i, t i)/k := by
  rw [Nat.le_div_iff_mul_le hk,sum_mul]
  exact sum_le_sum fun i _ => Nat.div_mul_le_self ..

/-- The batches of size `k` that some workers need for what they have taken. -/
theorem sum_ceil_le (t : ι → ℕ) {k : ℕ} (hk : 0 < k) :
    ∑ i, (t i+(k-1))/k ≤ min (∑ i, t i) (card ι)+((∑ i, t i)-card ι)/k := by
  have hterm : ∀ i, (t i+(k-1))/k ≤ min (t i) 1+(t i-min (t i) 1)/k := by
    intro i
    rcases Nat.eq_zero_or_pos (t i) with h | h
    · simp [h,Nat.div_eq_of_lt (Nat.sub_lt hk one_pos)]
    · have hsplit : t i+(k-1) = (t i-1)+k := by omega
      rw [hsplit,Nat.add_div_right _ hk,min_eq_right h,add_comm]
  -- Some `u` workers have taken something.
  obtain ⟨u,hu⟩ : ∃ u, u = ∑ i, min (t i) 1 := ⟨_,rfl⟩
  have hcard : u ≤ card ι := by
    rw [hu,← card_univ,card_eq_sum_ones]
    exact sum_le_sum fun i _ => min_le_right ..
  have hle : u ≤ ∑ i, t i := hu ▸ sum_le_sum fun i _ => min_le_left ..
  have hrest : ∑ i, (t i-min (t i) 1) = (∑ i, t i)-u := by
    rw [hu]
    exact sum_tsub_distrib _ fun i _ => min_le_left ..
  have hsum : ∑ i, (t i+(k-1))/k ≤ u+((∑ i, t i)-u)/k :=
    calc ∑ i, (t i+(k-1))/k ≤ ∑ i, (min (t i) 1+(t i-min (t i) 1)/k) := sum_le_sum fun i _ => hterm i
      _ = u+∑ i, (t i-min (t i) 1)/k := by rw [sum_add_distrib,hu]
      _ ≤ u+((∑ i, t i)-u)/k := by
        rw [← hrest]
        exact Nat.add_le_add_left (sum_div_le _ hk) u
  rcases le_total (∑ i, t i) (card ι) with h | h
  · have := Nat.div_le_self ((∑ i, t i)-u) k
    refine le_trans ?_ (Nat.le_add_right ..)
    omega
  have hmore : (∑ i, t i)-u ≤ ((∑ i, t i)-card ι)+(card ι-u)*k := by
    have := Nat.le_mul_of_pos_right (card ι-u) hk
    omega
  have hdiv := Nat.div_le_div_right (c := k) hmore
  rw [Nat.add_mul_div_right _ _ hk] at hdiv
  omega

theorem sum_indicator_lt (n v : ℕ) : ∑ j : Fin n, (if j.val < v then 1 else 0) = min v n := by
  induction n with
  | zero => simp
  | succ n ih =>
    rw [Fin.sum_univ_castSucc]
    simp only [Fin.val_castSucc,ih,Fin.val_last]
    split <;> omega

end LedgerForge.Batching
