import LedgerForge.Library.Sums

/-! # Maps as lists of entries

A map is a list of entries with distinct keys. Setting a key removes its entry and appends the new one; the order in which
a program visits the entries is any order of the list.
-/

namespace LedgerForge.Entries

open List

variable {κ α β : Type*} [DecidableEq κ]

def put (entries : List (κ × α)) (k : κ) (v : α) : List (κ × α) := entries.filter (fun e => e.1 ≠ k) ++ [(k,v)]

def keys (entries : List (κ × α)) : List κ := entries.map Prod.fst

variable {entries : List (κ × α)} {k : κ} {v : α}

theorem filter_of_notMem (h : k ∉ keys entries) : entries.filter (fun e => e.1 ≠ k) = entries := by
  rw [filter_eq_self]
  intro e he
  simpa using fun hk : e.1 = k => h (hk ▸ mem_map_of_mem he)

theorem put_of_notMem (h : k ∉ keys entries) : put entries k v = entries ++ [(k,v)] := by
  rw [put,filter_of_notMem h]

theorem foldl_put {l : List β} {key : β → κ} {f : β → α} (h : (keys entries ++ l.map key).Nodup) :
    l.foldl (fun entries x => put entries (key x) (f x)) entries = entries ++ l.map fun x => (key x,f x) := by
  induction l generalizing entries with
  | nil => simp
  | cons x l ih =>
    have hnew : key x ∉ keys entries := by
      intro hmem
      exact (nodup_append.mp h).2.2 _ hmem _ mem_cons_self rfl
    rw [foldl_cons,put_of_notMem hnew,ih]
    · simp
    · simpa [keys] using h

theorem mem_put {e : κ × α} : e ∈ put entries k v ↔ (e ∈ entries ∧ e.1 ≠ k) ∨ e = (k,v) := by
  simp [put]

theorem put_perm {entries' : List (κ × α)} (h : entries.Perm entries') (k : κ) (v : α) :
    (put entries k v).Perm (put entries' k v) := (h.filter _).append_right _

theorem map_put (f : α → β) (entries : List (κ × α)) (k : κ) (v : α) :
    (put entries k v).map (fun e => (e.1,f e.2)) = put (entries.map fun e => (e.1,f e.2)) k (f v) := by
  simp [put,filter_map,Function.comp_def]

theorem perm_keys_put (hn : (keys entries).Nodup) (hk : k ∈ keys entries) : (keys (put entries k v)).Perm (keys entries) := by
  have hkeys : keys (put entries k v) = (keys entries).filter (fun l => l ≠ k) ++ [k] := by
    simp only [put,keys,map_append,filter_map]
    rfl
  have herase : (keys entries).erase k = (keys entries).filter (fun l => l ≠ k) := by
    rw [hn.erase_eq_filter]
    exact filter_congr fun l _ => by by_cases h : l = k <;> simp [h]
  rw [hkeys,← herase]
  exact perm_append_singleton .. |>.trans (perm_cons_erase hk).symm

theorem sum_put {M : Type*} [AddCommMonoid M] {f : α → M} {w : α} (hn : (keys entries).Nodup) (hk : (k,w) ∈ entries) :
    ((put entries k v).map fun e => f e.2).sum+f w = (entries.map fun e => f e.2).sum+f v := by
  obtain ⟨pre,post,rfl⟩ := append_of_mem hk
  have hne : ∀ e ∈ pre ++ post, e.1 ≠ k := by
    intro e he hek
    have hperm : (keys (pre ++ (k,w) :: post)).Perm (k :: keys (pre ++ post)) := by
      simp [keys]
    exact (nodup_cons.mp (hperm.nodup_iff.mp hn)).1 (hek ▸ mem_map_of_mem he)
  have hfilter : (pre ++ (k,w) :: post).filter (fun e => e.1 ≠ k) = pre ++ post := by
    rw [filter_append,filter_cons_of_neg (by simp),← filter_append,filter_eq_self]
    intro e he
    simpa using hne e he
  rw [put,hfilter]
  simp only [map_append,map_cons,map_nil,sum_append,sum_cons,sum_nil]
  abel

end LedgerForge.Entries
