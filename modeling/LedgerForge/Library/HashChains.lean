import Mathlib.Tactic

/-! # Hash chains

Entries carry a sequence number, the hash of the entry before and their own hash. In a linked list the numbers
count up and each entry names the hash before it.
-/

namespace LedgerForge.HashChains

open List

/-- What a chain needs to know about its entries. -/
structure Links (α H : Type*) where
  seq : α → ℤ
  prev : α → H
  hash : α → H
  valid : α → Prop

variable {α H : Type*} (c : Links α H)

def Linked : ℤ → H → List α → Prop
  | _, _, [] => True
  | n, h, a :: as => c.seq a = n+1 ∧ c.prev a = h ∧ c.valid a ∧ Linked (n+1) (c.hash a) as

def headOf (h : H) (as : List α) : H := as.foldl (fun _ a => c.hash a) h

variable {c} {n : ℤ} {h h' : H} {as bs : List α}

theorem headOf_append : headOf c h (as ++ bs) = headOf c (headOf c h as) bs := foldl_append

@[simp] theorem headOf_concat (a : α) : headOf c h (as ++ [a]) = c.hash a := headOf_append

theorem linked_append : Linked c n h (as ++ bs) ↔ Linked c n h as ∧ Linked c (n+as.length) (headOf c h as) bs := by
  induction as generalizing n h with
  | nil => simp [Linked,headOf]
  | cons a as ih =>
    rw [cons_append,Linked,Linked,ih]
    have hlength : n+1+as.length = n+(as.length+1) := by ring
    rw [hlength]
    simp only [and_assoc]
    rfl

variable {a : α}

theorem linked_concat : Linked c n h (as ++ [a]) ↔
    Linked c n h as ∧ c.seq a = n+as.length+1 ∧ c.prev a = headOf c h as ∧ c.valid a := by
  rw [linked_append]
  simp [Linked]

theorem Linked.bounds (hl : Linked c n h as) (ha : a ∈ as) : n < c.seq a ∧ c.seq a ≤ n+as.length := by
  induction as generalizing n h with
  | nil => exact absurd ha not_mem_nil
  | cons x as ih =>
    obtain ⟨hseq,-,-,hrest⟩ := hl
    rw [length_cons]
    rcases mem_cons.mp ha with rfl | ha
    · omega
    · have := ih hrest ha
      omega

theorem Linked.sorted (hl : Linked c n h as) : as.Pairwise fun a b => c.seq a < c.seq b := by
  induction as generalizing n h with
  | nil => exact .nil
  | cons x as ih =>
    obtain ⟨hseq,-,-,hrest⟩ := hl
    refine .cons (fun a ha => ?_) (ih hrest)
    have := hrest.bounds ha
    omega

theorem Linked.eq_of_seq (hl : Linked c n h as) {b : α} (ha : a ∈ as) (hb : b ∈ as) (hseq : c.seq a = c.seq b) : a = b := by
  have hnodup : (as.map c.seq).Nodup := pairwise_map.mpr (hl.sorted.imp ne_of_lt)
  exact inj_on_of_nodup_map hnodup ha hb hseq

theorem Linked.insertionSort_eq (hl : Linked c n h as) (hperm : bs.Perm as) :
    bs.insertionSort (fun a b => c.seq a ≤ c.seq b) = as := by
  have hsorted := perm_insertionSort (fun a b => c.seq a ≤ c.seq b) bs |>.trans hperm
  refine hsorted.eq_of_pairwise (fun a b ha hb hab hba => ?_) (pairwise_insertionSort _ bs) (hl.sorted.imp le_of_lt)
  exact hl.eq_of_seq (hsorted.subset ha) hb (le_antisymm hab hba)

theorem agree_of_head {R : α → α → Prop}
    (hinj : ∀ a ∈ as, ∀ b ∈ bs, c.valid a → c.valid b → c.seq a = c.seq b → c.hash a = c.hash b →
      c.prev a = c.prev b ∧ R a b)
    (hlength : as.length = bs.length) (ha : Linked c n h as) (hb : Linked c n h' bs)
    (hhead : headOf c h as = headOf c h' bs) : h = h' ∧ List.Forall₂ R as bs := by
  induction as using List.reverseRecOn generalizing bs with
  | nil =>
    obtain rfl := length_eq_zero_iff.mp hlength.symm
    exact ⟨hhead,.nil⟩
  | append_singleton as a ih =>
    obtain rfl | ⟨bs,b,rfl⟩ := eq_nil_or_concat' bs
    · simp at hlength
    rw [headOf_concat,headOf_concat] at hhead
    have hrests : as.length = bs.length := by simpa using hlength
    obtain ⟨has,haseq,haprev,havalid⟩ := linked_concat.mp ha
    obtain ⟨hbs,hbseq,hbprev,hbvalid⟩ := linked_concat.mp hb
    have hamem : a ∈ as ++ [a] := mem_append_right _ (mem_singleton_self a)
    have hbmem : b ∈ bs ++ [b] := mem_append_right _ (mem_singleton_self b)
    obtain ⟨hprev,hagree⟩ := hinj a hamem b hbmem havalid hbvalid (by rw [haseq,hbseq,hrests]) hhead
    obtain ⟨hstart,hrest⟩ := ih (fun x hx y hy => hinj x (mem_append_left _ hx) y (mem_append_left _ hy))
      hrests has hbs (haprev.symm.trans (hprev.trans hbprev))
    exact ⟨hstart,rel_append hrest (.cons hagree .nil)⟩

end LedgerForge.HashChains
