import Mathlib.Tactic

/-! # Lists searched by a key

Tables are lists of records searched by a key. With distinct keys a search finds a record exactly when the record is
in the list.
-/

namespace LedgerForge.Keyed

open List

variable {α κ : Type*} [DecidableEq κ]

def find (key : α → κ) (l : List α) (k : κ) : Option α := l.find? fun x => key x = k

variable {key : α → κ} {l : List α} {k : κ} {x : α}

theorem find_key (h : find key l k = some x) : key x = k := by
  simpa using List.find?_some h

theorem find_mem (h : find key l k = some x) : x ∈ l := List.mem_of_find?_eq_some h

theorem find_eq_none : find key l k = none ↔ ∀ x ∈ l, key x ≠ k := by
  simp [find]

theorem exists_find (h : k ∈ l.map key) : ∃ x, find key l k = some x := by
  cases hf : find key l k with
  | none =>
    obtain ⟨x,hx,he⟩ := mem_map.mp h
    exact absurd he (find_eq_none.mp hf x hx)
  | some x => exact ⟨x,rfl⟩

theorem find_of_mem (hn : (l.map key).Nodup) (hx : x ∈ l) : find key l (key x) = some x := by
  obtain ⟨y,hy⟩ : ∃ y, find key l (key x) = some y := exists_find (mem_map_of_mem hx)
  rw [hy,inj_on_of_nodup_map hn (find_mem hy) hx (find_key hy)]

theorem find_append_of_some {l' : List α} (h : find key l k = some x) : find key (l ++ l') k = some x := by
  rw [find,List.find?_append]
  rw [find] at h
  rw [h]
  rfl

theorem find_map (f : α → α) (hf : ∀ x, key (f x) = key x) : find key (l.map f) k = (find key l k).map f := by
  induction l with
  | nil => rfl
  | cons y ys ih =>
    simp only [find,map_cons,List.find?_cons,hf] at ih ⊢
    split
    · rfl
    · exact ih

theorem length_le_one (hn : l.Nodup) (h : ∀ x ∈ l, ∀ y ∈ l, x = y) : l.length ≤ 1 := by
  match l with
  | [] => exact Nat.zero_le 1
  | [_] => exact le_rfl
  | x :: y :: rest => exact absurd (h x mem_cons_self y (mem_cons_of_mem _ mem_cons_self) ▸ mem_cons_self) (nodup_cons.mp hn).1

omit [DecidableEq κ] in
theorem nodup_concat (hn : (l.map key).Nodup) (hx : ∀ y ∈ l, key y ≠ key x) : ((l ++ [x]).map key).Nodup := by
  rw [map_append]
  refine hn.append (nodup_singleton _) fun k hk hnew => ?_
  obtain ⟨y,hy,rfl⟩ := mem_map.mp hk
  exact hx y hy (mem_singleton.mp hnew)

theorem map_update {pre post : List α} (hn : ((pre ++ x :: post).map key).Nodup) (u : α → α) :
    (pre ++ x :: post).map (fun y => if key y = key x then u y else y) = pre ++ u x :: post := by
  rw [map_append,nodup_append] at hn
  obtain ⟨-,hpost,hdisjoint⟩ := hn
  have hother : ∀ y, key y ≠ key x → (if key y = key x then u y else y) = y := fun y hy => if_neg hy
  rw [map_append,map_cons,if_pos rfl]
  congr 1
  · refine (map_congr_left fun y hy => hother y ?_).trans (map_id _)
    exact hdisjoint _ (mem_map_of_mem hy) _ mem_cons_self
  · congr 1
    refine (map_congr_left fun y hy => hother y fun h => ?_).trans (map_id _)
    exact (nodup_cons.mp hpost).1 (h ▸ mem_map_of_mem hy)

end LedgerForge.Keyed
