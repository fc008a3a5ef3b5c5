import Mathlib.Data.List.Induction

/-! # Descendants in an append-only list

Records with a key and the key of a parent, stored in order. The descendants of a set of roots are collected
in one pass, which finds all of them when nothing refers to a record before it is stored.
-/

namespace LedgerForge.Lineage

open List

variable {α κ : Type*} [DecidableEq κ] (key parent : α → κ)

/-- The records below the roots, in the order they were stored. -/
def descendants (roots : List κ) (l : List α) : List α :=
  l.foldl (fun acc x => if parent x ∈ roots ∨ parent x ∈ acc.map key then acc ++ [x] else acc) []

def ParentsFirst (l : List α) : Prop :=
  ∀ pre x post, l = pre ++ x :: post → ∀ y ∈ pre ++ [x], parent y ≠ key x

variable {key parent} {roots : List κ} {l : List α}

theorem descendants_snoc (x : α) : descendants key parent roots (l ++ [x]) =
    if parent x ∈ roots ∨ parent x ∈ (descendants key parent roots l).map key then descendants key parent roots l ++ [x]
    else descendants key parent roots l := by
  rw [descendants,foldl_append]
  rfl

theorem descendants_sublist : (descendants key parent roots l).Sublist l := by
  induction l using List.reverseRecOn with
  | nil => exact List.Sublist.refl _
  | append_singleton l x ih =>
    rw [descendants_snoc]
    split
    · exact ih.append (List.Sublist.refl _)
    · exact ih.trans (sublist_append_left l [x])

theorem descendants_append (l' : List α) : ∃ t, t.Sublist l' ∧
    descendants key parent roots (l ++ l') = descendants key parent roots l ++ t := by
  induction l' using List.reverseRecOn with
  | nil => exact ⟨[],List.Sublist.refl _,by rw [append_nil,append_nil]⟩
  | append_singleton l' x ih =>
    obtain ⟨t,ht,he⟩ := ih
    rw [← append_assoc,descendants_snoc]
    split
    · exact ⟨t ++ [x],ht.append (List.Sublist.refl _),by rw [he,append_assoc]⟩
    · exact ⟨t,ht.trans (sublist_append_left l' [x]),he⟩

theorem descendants_mono (l' : List α) : descendants key parent roots l <+: descendants key parent roots (l ++ l') := by
  obtain ⟨t,-,he⟩ := @descendants_append _ _ _ key parent roots l l'
  exact ⟨t,he.symm⟩

omit [DecidableEq κ] in
theorem ParentsFirst.init {x : α} (h : ParentsFirst key parent (l ++ [x])) : ParentsFirst key parent l := by
  intro pre y post he
  exact h pre y (post ++ [x]) (by rw [he]; simp)

/-- The descendants are the records whose parent is a root or a descendant. -/
theorem mem_descendants (h : ParentsFirst key parent l) {x : α} : x ∈ descendants key parent roots l ↔
    x ∈ l ∧ (parent x ∈ roots ∨ ∃ p ∈ descendants key parent roots l, parent x = key p) := by
  induction l using List.reverseRecOn with
  | nil => simp [descendants]
  | append_singleton l y ih =>
    have hnew : ∀ z ∈ l ++ [y], parent z ≠ key y := h l y [] rfl
    have hmem : ∀ {z : α}, parent z ∈ (descendants key parent roots l).map key ↔
        ∃ p ∈ descendants key parent roots l, parent z = key p := by
      simp [eq_comm]
    -- the last record is nobody's parent, so it changes nothing for the others
    have hsame : ∀ {z : α}, z ∈ l ++ [y] → ((∃ p ∈ descendants key parent roots (l ++ [y]), parent z = key p) ↔
        ∃ p ∈ descendants key parent roots l, parent z = key p) := by
      intro z hz
      constructor
      · rintro ⟨p,hp,he⟩
        rw [descendants_snoc] at hp
        split at hp
        · rcases mem_append.mp hp with hp | hp
          · exact ⟨p,hp,he⟩
          · exact absurd (mem_singleton.mp hp ▸ he) (hnew z hz)
        · exact ⟨p,hp,he⟩
      · rintro ⟨p,hp,he⟩
        exact ⟨p,(descendants_mono [y]).subset hp,he⟩
    constructor
    · intro hx
      have hxl := descendants_sublist.subset hx
      refine ⟨hxl,?_⟩
      rw [hsame hxl]
      rw [descendants_snoc] at hx
      split at hx
      · rename_i hc
        rcases mem_append.mp hx with hx | hx
        · exact ((ih h.init).mp hx).2
        · exact mem_singleton.mp hx ▸ hc.imp_right hmem.mp
      · exact ((ih h.init).mp hx).2
    · rintro ⟨hx,hc⟩
      rw [hsame hx] at hc
      rcases mem_append.mp hx with hx | hx
      · exact (descendants_mono [y]).subset ((ih h.init).mpr ⟨hx,hc⟩)
      obtain rfl := mem_singleton.mp hx
      rw [descendants_snoc,if_pos (hc.imp_right hmem.mpr)]
      exact mem_append_right _ (mem_singleton_self _)

end LedgerForge.Lineage
