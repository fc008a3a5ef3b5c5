import Mathlib.Tactic

/-! # Sums over dated records

Records carry a date and a value. The records of a window sum up to a total; adjacent windows add up.
-/

namespace LedgerForge.Windows

open List

variable {α δ M : Type*} [LinearOrder δ] (date : α → δ)

def Within (lo hi : δ) (x : α) : Prop := lo < date x ∧ date x ≤ hi
deriving Decidable

section Sums

variable [AddCommGroup M] (value : α → M)

def window (lo hi : δ) (l : List α) : M := (l.map fun x => if Within date lo hi x then value x else 0).sum

variable {date value} {lo mid hi : δ} {l l' : List α}

theorem window_append : window date value lo hi (l ++ l') = window date value lo hi l+window date value lo hi l' := by
  rw [window,map_append,sum_append]
  rfl

theorem window_split (hlo : lo ≤ mid) (hhi : mid ≤ hi) :
    window date value lo hi l = window date value lo mid l+window date value mid hi l := by
  unfold window
  rw [← sum_map_add]
  refine congrArg List.sum (map_congr_left fun x _ => ?_)
  by_cases hmid : date x ≤ mid
  · have hright : ¬ Within date mid hi x := fun h => absurd h.1 (not_lt.mpr hmid)
    have hleft : Within date lo hi x ↔ Within date lo mid x := and_congr_right fun _ => ⟨fun _ => hmid,fun _ => hmid.trans hhi⟩
    rw [if_neg hright,add_zero]
    exact if_congr hleft rfl rfl
  have hleft : ¬ Within date lo mid x := fun h => hmid h.2
  have hright : Within date lo hi x ↔ Within date mid hi x :=
    and_congr_left fun _ => ⟨fun _ => not_le.mp hmid,hlo.trans_lt⟩
  rw [if_neg hleft,zero_add]
  exact if_congr hright rfl rfl

theorem restart_iff (hlo : lo ≤ mid) (hhi : mid ≤ hi) (base : M) :
    base+window date value mid hi l = window date value lo hi l ↔ base = window date value lo mid l := by
  rw [window_split hlo hhi,add_left_inj]

end Sums

section Positive

variable [AddCommGroup M] [PartialOrder M] [IsOrderedAddMonoid M]

theorem sum_guarded_eq_zero {p : α → Prop} [DecidablePred p] {f : α → M} {l : List α} (hf : ∀ x ∈ l, p x → 0 < f x) :
    (l.map fun x => if p x then f x else 0).sum = 0 ↔ ∀ x ∈ l, ¬ p x := by
  induction l with
  | nil => simp
  | cons x l ih =>
    have hrest : 0 ≤ (l.map fun y => if p y then f y else 0).sum := by
      refine sum_nonneg fun v hv => ?_
      obtain ⟨y,hy,rfl⟩ := mem_map.mp hv
      split
      · rename_i hp
        exact (hf y (mem_cons_of_mem _ hy) hp).le
      · exact le_refl _
    rw [map_cons,sum_cons,forall_mem_cons]
    by_cases hx : p x
    · have hpos := add_pos_of_pos_of_nonneg (hf x mem_cons_self hx) hrest
      rw [if_pos hx]
      exact ⟨fun h => absurd h hpos.ne',fun h => absurd hx h.1⟩
    · rw [if_neg hx,zero_add,ih fun y hy => hf y (mem_cons_of_mem _ hy)]
      exact ⟨fun h => ⟨hx,h⟩,fun h => h.2⟩

variable {date} {value : α → M} {lo hi : δ} {l : List α}

theorem window_eq_zero {counts : α → Prop} [DecidablePred counts] (hpos : ∀ x ∈ l, counts x → 0 < value x)
    (hzero : ∀ x ∈ l, ¬ counts x → value x = 0) :
    window date value lo hi l = 0 ↔ ∀ x ∈ l, counts x → ¬ Within date lo hi x := by
  have hguard : window date value lo hi l = (l.map fun x => if counts x ∧ Within date lo hi x then value x else 0).sum := by
    refine congrArg List.sum (map_congr_left fun x hx => ?_)
    by_cases hc : counts x
    · exact if_congr (and_iff_right hc).symm rfl rfl
    · rw [hzero x hx hc,ite_self,ite_self]
  rw [hguard,sum_guarded_eq_zero fun x hx hp => hpos x hx hp.1]
  simp only [not_and]

theorem window_eq_total {counts : α → Prop} [DecidablePred counts] (hpos : ∀ x ∈ l, counts x → 0 < value x)
    (hzero : ∀ x ∈ l, ¬ counts x → value x = 0) :
    (l.map value).sum = window date value lo hi l ↔ ∀ x ∈ l, counts x → Within date lo hi x := by
  have hsplit : (l.map value).sum = window date value lo hi l+
      (l.map fun x => if counts x ∧ ¬ Within date lo hi x then value x else 0).sum := by
    unfold window
    rw [← sum_map_add]
    refine congrArg List.sum (map_congr_left fun x hx => ?_)
    by_cases hc : counts x
    · by_cases hw : Within date lo hi x
      · rw [if_pos hw,if_neg fun h => h.2 hw,add_zero]
      · rw [if_neg hw,if_pos ⟨hc,hw⟩,zero_add]
    · rw [hzero x hx hc,ite_self,ite_self,add_zero]
  rw [hsplit,add_eq_left,sum_guarded_eq_zero fun x hx hp => hpos x hx hp.1]
  simp only [not_and,not_not]

end Positive

end LedgerForge.Windows
