import LedgerForge.Library.Keyed

/-! # Sums over lists

Sums over the elements with a property, as sums of guarded terms over the whole list.
-/

namespace LedgerForge.Sums

open List

variable {α β M : Type*} [AddCommMonoid M]

theorem sum_filter (l : List α) (p : α → Prop) [DecidablePred p] (f : α → M) :
    ((l.filter p).map f).sum = (l.map fun x => if p x then f x else 0).sum := by
  induction l with
  | nil => rfl
  | cons x l ih => by_cases hx : p x <;> simp [hx,ih]

theorem sum_comm (l : List α) (m : List β) (f : α → β → M) :
    (l.map fun x => (m.map fun y => f x y).sum).sum = (m.map fun y => (l.map fun x => f x y).sum).sum := by
  induction l with
  | nil => simp
  | cons x l ih => simp only [map_cons,sum_cons,ih,sum_map_add]

variable {l : List α} {x : α}

theorem sum_single [DecidableEq α] (hn : l.Nodup) (hx : x ∈ l) (p : α → Prop) [DecidablePred p]
    (h : ∀ y ∈ l, p y ↔ y = x) (f : α → M) : (l.map fun y => if p y then f y else 0).sum = f x := by
  rw [sum_map_eq_nsmul_single x _ fun y hne hy => if_neg fun hp => hne ((h y hy).mp hp),
    count_eq_one_of_mem hn hx,one_nsmul,if_pos ((h x hx).mpr rfl)]

theorem sum_none (p : α → Prop) [DecidablePred p] (h : ∀ y ∈ l, ¬ p y) (f : α → M) :
    (l.map fun y => if p y then f y else 0).sum = 0 := by
  refine sum_eq_zero fun v hv => ?_
  obtain ⟨y,hy,rfl⟩ := mem_map.mp hv
  exact if_neg (h y hy)

theorem sum_insert [DecidableEq α] (hn : l.Nodup) (hx : x ∈ l) {p q : α → Prop} [DecidablePred p]
    [DecidablePred q] (h : ∀ y ∈ l, p y ↔ y = x ∨ q y) (hq : ¬ q x) (f : α → M) :
    (l.map fun y => if p y then f y else 0).sum = f x+(l.map fun y => if q y then f y else 0).sum := by
  rw [← sum_single hn hx (· = x) (fun _ _ => Iff.rfl) f,← sum_map_add]
  refine congrArg List.sum (map_congr_left fun y hy => ?_)
  by_cases hyx : y = x
  · subst hyx
    rw [if_pos ((h y hy).mpr (.inl rfl)),if_pos rfl,if_neg hq,add_zero]
  · rw [if_neg hyx,zero_add]
    exact if_congr ((h y hy).trans (or_iff_right hyx)) rfl rfl

theorem sum_eq_zero_of_groups [DecidableEq β] {m : List β} (hm : m.Nodup) (p : α → β → Prop)
    [∀ x y, Decidable (p x y)] {f : α → M} (hone : ∀ x ∈ l, f x = 0 ∨ ∃ y ∈ m, ∀ z ∈ m, p x z ↔ z = y)
    (hzero : ∀ y ∈ m, (l.map fun x => if p x y then f x else 0).sum = 0) : (l.map f).sum = 0 := by
  have hsplit : ∀ x ∈ l, f x = (m.map fun y => if p x y then f x else 0).sum := by
    intro x hx
    rcases hone x hx with hf | ⟨y,hy,honly⟩
    · simp [hf]
    · exact (sum_single hm hy (p x) honly fun _ => f x).symm
  rw [map_congr_left hsplit,sum_comm]
  refine sum_eq_zero fun v hv => ?_
  obtain ⟨y,hy,rfl⟩ := mem_map.mp hv
  exact hzero y hy

theorem sum_map_update {κ G : Type*} [AddCommGroup G] {key : α → κ} [DecidableEq κ] (hn : (l.map key).Nodup) (hx : x ∈ l) (u : α → α) (f : α → G) :
    ((l.map fun y => if key y = key x then u y else y).map f).sum = (l.map f).sum+(f (u x)-f x) := by
  obtain ⟨pre,post,rfl⟩ := append_of_mem hx
  rw [Keyed.map_update hn]
  simp only [map_append,map_cons,sum_append,sum_cons]
  abel

end LedgerForge.Sums
