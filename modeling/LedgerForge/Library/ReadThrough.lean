import Mathlib.Tactic

/-! # A cache in front of a query

An answer is looked up under a key and computed only when there is none that can be used; what was computed is kept
when it is worth keeping. Answers of several kinds share one cache, which may lose entries at any time.
-/

namespace LedgerForge

open Function

abbrev Cache (κ ε : Type*) := κ → Option ε

namespace Cache

variable {κ ε α τ : Type*} [DecidableEq κ]

def empty : Cache κ ε := fun _ => none

def set (c : Cache κ ε) (k : κ) (e : ε) : Cache κ ε := update c k (some e)

def drop (c : Cache κ ε) (k : κ) : Cache κ ε := update c k none

/-- A kind of answers: how they are written to entries, and which of them are used and kept. -/
structure Kind (ε α : Type*) where
  encode : α → ε
  decode : ε → Option α
  usable : α → Bool
  decode_encode : ∀ a, decode (encode a) = some a

variable (kind : Kind ε α) (c : Cache κ ε) (k : κ) (query : Except τ α)

def hit : Option α := ((c k).bind kind.decode).filter kind.usable

def readThrough : Except τ α × Cache κ ε :=
  match hit kind c k with
  | some a => (.ok a,c)
  | none =>
    match query with
    | .ok a => (.ok a,if kind.usable a then c.set k (kind.encode a) else c)
    | .error e => (.error e,c)

variable {kind c k query}

omit [DecidableEq κ] in
theorem hit_eq_some {a : α} : hit kind c k = some a ↔ ∃ e, c k = some e ∧ kind.decode e = some a ∧ kind.usable a = true := by
  simp only [hit,Option.filter_eq_some_iff,Option.bind_eq_some_iff]
  constructor
  · rintro ⟨⟨e,he,hdecode⟩,husable⟩
    exact ⟨e,he,hdecode,husable⟩
  · rintro ⟨e,he,hdecode,husable⟩
    exact ⟨⟨e,he,hdecode⟩,husable⟩

omit [DecidableEq κ] in
theorem hit_congr {c' : Cache κ ε} (h : c k = c' k) : hit kind c k = hit kind c' k := by
  rw [hit,hit,h]

@[simp] theorem set_self (e : ε) : c.set k e k = some e := update_self ..

theorem set_of_ne {k' : κ} (h : k' ≠ k) (e : ε) : c.set k e k' = c k' := update_of_ne h ..

@[simp] theorem drop_self : c.drop k k = none := update_self ..

theorem drop_of_ne {k' : κ} (h : k' ≠ k) : c.drop k k' = c k' := update_of_ne h ..

theorem readThrough_hit {a : α} (h : hit kind c k = some a) : readThrough kind c k query = (.ok a,c) := by
  simp only [readThrough,h]

theorem of_readThrough {a : α} (h : (readThrough kind c k query).1 = .ok a) : hit kind c k = some a ∨ query = .ok a := by
  unfold readThrough at h
  split at h
  · next a' ha =>
    cases h
    exact .inl ha
  split at h
  · cases h
    exact .inr rfl
  · cases h

theorem of_entry {k' : κ} {e : ε} (h : (readThrough kind c k query).2 k' = some e) :
    c k' = some e ∨ (k' = k ∧ ∃ a, query = .ok a ∧ kind.usable a = true ∧ e = kind.encode a) := by
  unfold readThrough at h
  split at h
  · exact .inl h
  split at h
  · next a =>
    dsimp only at h
    split at h
    · next husable =>
      by_cases hk : k' = k
      · subst hk
        rw [set_self,Option.some.injEq] at h
        exact .inr ⟨rfl,a,rfl,husable,h.symm⟩
      · exact .inl (by rwa [set_of_ne hk] at h)
    · exact .inl h
  · exact .inl h

theorem hit_readThrough {a : α} (h : (readThrough kind c k query).1 = .ok a) (ha : kind.usable a = true) :
    hit kind (readThrough kind c k query).2 k = some a := by
  unfold readThrough at h ⊢
  split at h
  · next a' hhit =>
    cases h
    exact hhit
  split at h
  · cases h
    simp [ha,hit,kind.decode_encode]
  · cases h

theorem hit_kept {β : Type*} {kind' : Kind ε β} {query' : Except τ β} {k' : κ} {a : α} (h : hit kind c k = some a)
    (hk : k' = k → ∃ b, hit kind' c k' = some b) : hit kind (readThrough kind' c k' query').2 k = some a := by
  by_cases hkk : k' = k
  · obtain ⟨b,hb⟩ := hk hkk
    rwa [readThrough_hit hb]
  rw [← h]
  apply hit_congr
  unfold readThrough
  split
  · rfl
  split
  · split
    · exact set_of_ne (Ne.symm hkk) _
    · rfl
  · rfl

end Cache

theorem append_separator_inj {α : Type*} {sep : α} {a b s t : List α} (hs : sep ∉ s) (ht : sep ∉ t)
    (h : a ++ sep :: s = b ++ sep :: t) : a = b ∧ s = t := by
  rcases List.append_eq_append_iff.mp h with ⟨m,rfl,hm⟩ | ⟨m,rfl,hm⟩
  · cases m with
    | nil => simpa using hm
    | cons x m =>
      rw [List.cons_append,List.cons.injEq] at hm
      exact absurd (hm.2 ▸ List.mem_append_right _ List.mem_cons_self) hs
  · cases m with
    | nil => simpa [eq_comm] using hm
    | cons x m =>
      rw [List.cons_append,List.cons.injEq] at hm
      exact absurd (hm.2 ▸ List.mem_append_right _ List.mem_cons_self) ht

end LedgerForge
