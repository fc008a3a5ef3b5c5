import LedgerForge.Library.Keyed
import LedgerForge.Library.Results

/-! # Tables of counters

A table holds one integer for each of some keys. Fallible updates that each add to one counter add up to sums
over the updates.
-/

namespace LedgerForge.Counters

open List Keyed

variable {κ : Type} [DecidableEq κ]

/-- The counter of a key, zero when it has no row. -/
def value (rows : List (κ × ℤ)) (k : κ) : ℤ := ((find Prod.fst rows k).map Prod.snd).getD 0

def set (rows : List (κ × ℤ)) (k : κ) (n : ℤ) : List (κ × ℤ) := rows.map fun row => if row.1 = k then (k,n) else row

def ensure (rows : List (κ × ℤ)) (k : κ) : List (κ × ℤ) :=
  if (find Prod.fst rows k).isSome then rows else rows ++ [(k,0)]

def Has (rows : List (κ × ℤ)) (k : κ) : Prop := (find Prod.fst rows k).isSome

variable {rows rows' : List (κ × ℤ)} {k x : κ} {n : ℤ}

theorem has_iff : Has rows k ↔ k ∈ rows.map Prod.fst := by
  constructor
  · intro h
    obtain ⟨row,hrow⟩ := Option.isSome_iff_exists.mp h
    exact find_key hrow ▸ mem_map_of_mem (find_mem hrow)
  · intro h
    obtain ⟨row,hrow⟩ := exists_find h
    exact Option.isSome_iff_exists.mpr ⟨row,hrow⟩

theorem set_key (row : κ × ℤ) : (if row.1 = k then (k,n) else row).1 = row.1 := by
  split
  · rename_i h
    exact h.symm
  · rfl

theorem has_set (h : Has rows x) : Has (set rows k n) x := by
  have hkeys : (set rows k n).map Prod.fst = rows.map Prod.fst := by
    rw [set,map_map]
    exact map_congr_left fun row _ => set_key row
  rwa [has_iff,hkeys,← has_iff]

theorem value_set (h : Has rows k) (x : κ) : value (set rows k n) x = if x = k then n else value rows x := by
  unfold value set
  rw [find_map _ set_key]
  split
  · rename_i hx
    subst hx
    obtain ⟨row,hrow⟩ := Option.isSome_iff_exists.mp h
    rw [hrow,Option.map_some,if_pos (find_key hrow)]
    rfl
  · rename_i hx
    cases hfind : find Prod.fst rows x with
    | none => rfl
    | some row => rw [Option.map_some,if_neg fun hk => hx ((find_key hfind).symm.trans hk)]

theorem has_ensure_self (rows : List (κ × ℤ)) (k : κ) : Has (ensure rows k) k := by
  unfold ensure
  split
  · assumption
  · rw [has_iff]
    simp

theorem has_ensure (h : Has rows x) : Has (ensure rows k) x := by
  unfold ensure
  split
  · exact h
  rw [has_iff] at h ⊢
  rw [map_append]
  exact mem_append_left _ h

theorem value_ensure (rows : List (κ × ℤ)) (k x : κ) : value (ensure rows k) x = value rows x := by
  unfold ensure
  split
  · rfl
  rename_i hnone
  unfold value
  cases hfind : find Prod.fst rows x with
  | some row => rw [find_append_of_some hfind]
  | none =>
    -- the appended row is the only candidate, and it is zero
    cases hlast : find Prod.fst (rows ++ [(k,0)]) x with
    | none => rfl
    | some row =>
      rcases mem_append.mp (find_mem hlast) with hmem | hmem
      · exact absurd (find_key hlast) (find_eq_none.mp hfind row hmem)
      · rw [mem_singleton.mp hmem]
        rfl

theorem value_foldlM {α ε : Type} {f : List (κ × ℤ) → α → Except ε (List (κ × ℤ))} {key : α → κ} {amount : α → ℤ}
    {P : List (κ × ℤ) → Prop} {l : List α}
    (hf : ∀ rows rows', ∀ a ∈ l, P rows → f rows a = .ok rows' →
      P rows' ∧ ∀ x, value rows' x = value rows x+if key a = x then amount a else 0)
    (hinv : P rows) (h : l.foldlM f rows = .ok rows') :
    P rows' ∧ ∀ x, value rows' x = value rows x+(l.map fun a => if key a = x then amount a else 0).sum := by
  induction l generalizing rows with
  | nil =>
    cases h
    exact ⟨hinv,fun x => by simp⟩
  | cons a l ih =>
    obtain ⟨mid,hmid,hrest⟩ := bind_ok h
    obtain ⟨hinv',hvalue⟩ := hf rows mid a mem_cons_self hinv hmid
    obtain ⟨hlast,hsum⟩ := ih (fun r r' b hb => hf r r' b (mem_cons_of_mem _ hb)) hinv' hrest
    refine ⟨hlast,fun x => ?_⟩
    rw [hsum,hvalue,map_cons,sum_cons,add_assoc]

end LedgerForge.Counters
