import Mathlib.Tactic

/-! # Reading a growing table page by page

Every page is a query of its own over the table as it stands then: the records in falling order of a key, without
those before an offset and after a limit.
-/

namespace LedgerForge.Paging

open List

variable {α δ : Type*} [LinearOrder δ] (key : α → δ)

/-- Falling keys; records with equal keys stand in any order. -/
def Ordered (l : List α) : Prop := l.Pairwise fun x y => key y ≤ key x
deriving Decidable

def Distinct (l : List α) : Prop := l.Pairwise fun x y => key x ≠ key y

instance (l : List α) : Decidable (Distinct key l) := inferInstanceAs (Decidable (l.Pairwise _))

def rank (l : List α) (x : α) : ℕ := l.countP fun y => key x < key y

def page (offset size : ℕ) (l : List α) : List α := (l.drop offset).take size

variable {key} {l l' : List α} {x : α} {offset size : ℕ}

theorem Ordered.getElem?_rank (ho : Ordered key l) (hd : Distinct key l) (hx : x ∈ l) : l[rank key l x]? = some x := by
  obtain ⟨before,after,rfl⟩ := append_of_mem hx
  obtain ⟨-,hoa,hob⟩ := pairwise_append.mp ho
  obtain ⟨-,hda,hdb⟩ := pairwise_append.mp hd
  have hbefore : before.countP (fun y => decide (key x < key y)) = before.length := by
    rw [countP_eq_length]
    intro y hy
    exact decide_eq_true (lt_of_le_of_ne (hob y hy x mem_cons_self) (hdb y hy x mem_cons_self).symm)
  have hafter : (x :: after).countP (fun y => decide (key x < key y)) = 0 := by
    rw [countP_eq_zero]
    intro y hy
    rw [decide_eq_true_eq,not_lt]
    rcases mem_cons.mp hy with rfl | hy
    · exact le_rfl
    · exact (pairwise_cons.mp hoa).1 y hy
  rw [rank,countP_append,hbefore,hafter,add_zero,List.getElem?_append_right le_rfl,Nat.sub_self]
  rfl

theorem rank_mono (h : l.Sublist l') : rank key l x ≤ rank key l' x := h.countP_le

theorem rank_perm (h : l.Perm l') : rank key l x = rank key l' x := h.countP_eq _

omit [LinearOrder δ] in
theorem distinct_perm (h : l.Perm l') (hd : Distinct key l') : Distinct key l :=
  (h.pairwise_iff fun hxy => hxy.symm).mpr hd

theorem mem_page_of_rank (ho : Ordered key l) (hd : Distinct key l) (hx : x ∈ l) (hlow : offset ≤ rank key l x)
    (hhigh : rank key l x < offset+size) : x ∈ page offset size l := by
  have hat := ho.getElem?_rank hd hx
  apply mem_of_getElem? (i := rank key l x-offset)
  rw [page,List.getElem?_take_of_lt (by omega),List.getElem?_drop,Nat.add_sub_cancel' hlow]
  exact hat

theorem length_le_of_short (h : (page offset size l).length < size) : l.length ≤ offset+(page offset size l).length := by
  rw [page,length_take,length_drop] at h ⊢
  omega

theorem mem_page_of_short (ho : Ordered key l) (hd : Distinct key l) (hx : x ∈ l) (hlow : offset ≤ rank key l x)
    (hshort : (page offset size l).length < size) : x ∈ page offset size l := by
  obtain ⟨hlt,-⟩ := List.getElem?_eq_some_iff.mp (ho.getElem?_rank hd hx)
  have := length_le_of_short hshort
  exact mem_page_of_rank ho hd hx hlow (by omega)

theorem page_eq_self (h : l.length ≤ size) : page 0 size l = l := by
  rw [page,drop_zero,take_of_length_le h]

end LedgerForge.Paging
