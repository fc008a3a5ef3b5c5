import Mathlib.Logic.Relation
import Mathlib.Order.Basic

/-! # Tables of owned keys

A key is free or belongs to the owner that set it. Setting a free key and deleting a key of one's own are the only
operations, each atomic.
-/

namespace LedgerForge

open Relation

abbrev LockTable (κ ω : Type*) := κ → Option ω

namespace LockTable

variable {κ ω : Type*} [DecidableEq κ]

def empty : LockTable κ ω := fun _ => none

def setIfAbsent (t : LockTable κ ω) (k : κ) (v : ω) : LockTable κ ω :=
  fun k' => if k' = k ∧ (t k).isNone then some v else t k'

def compareDelete [DecidableEq ω] (t : LockTable κ ω) (k : κ) (v : ω) : LockTable κ ω :=
  fun k' => if k' = k ∧ t k = some v then none else t k'

variable {t : LockTable κ ω} {k k' : κ} {v w : ω}

theorem setIfAbsent_self (h : t k = none) : t.setIfAbsent k v k = some v := by
  simp [setIfAbsent,h]

theorem setIfAbsent_of_some (h : t k' = some w) : t.setIfAbsent k v k' = some w := by
  unfold setIfAbsent
  split
  · next hfree =>
    obtain ⟨rfl,hnone⟩ := hfree
    simp [h] at hnone
  · exact h

theorem of_setIfAbsent (h : t.setIfAbsent k v k' = some w) : (k' = k ∧ w = v ∧ t k = none) ∨ t k' = some w := by
  unfold setIfAbsent at h
  split at h
  · next hfree => exact .inl ⟨hfree.1,(Option.some.inj h).symm,Option.isNone_iff_eq_none.mp hfree.2⟩
  · exact .inr h

variable [DecidableEq ω]

theorem compareDelete_of_ne (hv : w ≠ v) (h : t k' = some w) : t.compareDelete k v k' = some w := by
  unfold compareDelete
  split
  · next hown =>
    obtain ⟨rfl,hown⟩ := hown
    exact absurd (Option.some.inj (h.symm.trans hown)) hv
  · exact h

theorem compareDelete_of_key_ne (hk : k' ≠ k) : t.compareDelete k v k' = t k' :=
  if_neg fun h => hk h.1

theorem compareDelete_self : t.compareDelete k v k ≠ some v := by
  unfold compareDelete
  split
  · simp
  · next h => exact fun hown => h ⟨rfl,hown⟩

theorem of_compareDelete (h : t.compareDelete k v k' = some w) : t k' = some w := by
  unfold compareDelete at h
  split at h
  · exact absurd h (by simp)
  · exact h

end LockTable

namespace Waiting

variable {ι κ : Type*} [Preorder κ] {waits : ι → ι → Prop} {next : ι → κ}

private def Inner (waits : ι → ι → Prop) (a b : ι) : Prop :=
  (∃ z, waits z a) ∧ waits a b ∧ ∃ c, waits b c

private theorem inner_of_chain {a b : ι} (h : TransGen waits a b) (ha : ∃ z, waits z a) (hb : ∃ c, waits b c) :
    TransGen (Inner waits) a b := by
  induction h with
  | single hab => exact .single ⟨ha,hab,hb⟩
  | @tail b c hchain hbc ih =>
    obtain ⟨z,-,hz⟩ := TransGen.tail'_iff.mp hchain
    exact .tail (ih ⟨c,hbc⟩) ⟨⟨z,hz⟩,hbc,hb⟩

theorem no_cycle (hgrow : ∀ z a b c, waits z a → waits a b → waits b c → next a < next b) (a : ι) :
    ¬ TransGen waits a a := by
  intro hcycle
  obtain ⟨z,-,hz⟩ := TransGen.tail'_iff.mp hcycle
  obtain ⟨c,hc,-⟩ := TransGen.head'_iff.mp hcycle
  have hinner := inner_of_chain hcycle ⟨z,hz⟩ ⟨c,hc⟩
  have hlt : ∀ {b}, TransGen (Inner waits) a b → next a < next b := by
    intro b hb
    induction hb with
    | single h =>
      obtain ⟨⟨z,hz⟩,hab,⟨c,hc⟩⟩ := h
      exact hgrow z _ _ c hz hab hc
    | tail _ h ih =>
      obtain ⟨⟨z,hz⟩,hab,⟨c,hc⟩⟩ := h
      exact ih.trans (hgrow z _ _ c hz hab hc)
  exact lt_irrefl _ (hlt hinner)

end Waiting

end LedgerForge
