import LedgerForge.Library.Keyed

/-! # Versioned stores and conditional writes

A store is a list of cells with distinct keys; every write increments the version of its cell. A
conditional write names the version it expects and a set of them succeeds as a whole or not at all.
-/

namespace LedgerForge.VersionedStore

open Keyed

variable {κ α : Type} [DecidableEq κ]

/-- A keyed value with the number of writes it has seen. -/
structure Cell (κ α : Type) where
  key : κ
  version : ℕ
  value : α
deriving DecidableEq

def Cell.expects (w c : Cell κ α) : Bool := c.key = w.key && c.version = w.version

def Cell.write (c w : Cell κ α) : Cell κ α := ⟨c.key,c.version+1,w.value⟩

def lookup (store : List (Cell κ α)) (k : κ) : Option (Cell κ α) := find Cell.key store k

/-- Write every cell whose expected version is stored; refuse the whole set otherwise. -/
def writeSet (store ws : List (Cell κ α)) : Option (List (Cell κ α)) :=
  if ∀ w ∈ ws, ∃ c ∈ store, w.expects c = true then
    some (store.map fun c => match ws.find? fun w => w.expects c with
      | some w => c.write w
      | none => c)
  else none

/-- A snapshot that is not newer than the store and agrees with it at equal versions. -/
def Fresh (store : List (Cell κ α)) (s : Cell κ α) : Prop :=
  ∀ c, lookup store s.key = some c → s.version ≤ c.version ∧ (s.version = c.version → s.value = c.value)

/-- The outcome of writing a set of cells with distinct keys. -/
structure Written (store store' ws : List (Cell κ α)) : Prop where
  keys : store'.map Cell.key = store.map Cell.key
  matched : ∀ w ∈ ws, ∃ c, lookup store w.key = some c ∧ c.version = w.version
  written : ∀ w ∈ ws, lookup store' w.key = some ⟨w.key,w.version+1,w.value⟩
  kept : ∀ k, k ∉ ws.map Cell.key → lookup store' k = lookup store k

variable {store store' ws : List (Cell κ α)} {s : Cell κ α}

theorem writeSet_written (hn : (store.map Cell.key).Nodup)
    (hws : (ws.map Cell.key).Nodup) (h : writeSet store ws = some store') : Written store store' ws := by
  obtain ⟨hall,h⟩ := Option.ite_none_right_eq_some.mp h
  cases h
  set f : Cell κ α → Cell κ α := fun c => match ws.find? fun w => w.expects c with
    | some w => c.write w
    | none => c with hfdef
  have hf : ∀ c, (f c).key = c.key := by
    intro c
    simp only [hfdef]
    split <;> rfl
  have hmatched : ∀ w ∈ ws, ∃ c, lookup store w.key = some c ∧ c.version = w.version := by
    intro w hw
    obtain ⟨c,hc,he⟩ := hall w hw
    simp only [Cell.expects,Bool.and_eq_true,decide_eq_true_eq] at he
    exact ⟨c,he.1 ▸ find_of_mem hn hc,he.2⟩
  refine ⟨by simp [hf,Function.comp_def],hmatched,fun w hw => ?_,fun k hk => ?_⟩
  · obtain ⟨c,hc,hv⟩ := hmatched w hw
    have hkey := find_key hc
    have hfind : (ws.find? fun w => w.expects c) = some w := by
      have hex : w.expects c = true := by simp [Cell.expects,hkey,hv]
      obtain ⟨w',hw'⟩ : ∃ w', (ws.find? fun w => w.expects c) = some w' :=
        Option.isSome_iff_exists.mp (List.find?_isSome.mpr ⟨w,hw,hex⟩)
      have hw'key : w'.key = w.key := by
        have := List.find?_some hw'
        simp only [Cell.expects,Bool.and_eq_true,decide_eq_true_eq] at this
        rw [← this.1,hkey]
      rw [hw']
      exact congrArg some (List.inj_on_of_nodup_map hws (List.mem_of_find?_eq_some hw') hw hw'key)
    rw [lookup,find_map _ hf,← lookup,hc]
    simp [hfdef,hfind,Cell.write,hkey,hv]
  · rw [lookup,find_map _ hf,← lookup]
    cases hc : lookup store k with
    | none => rfl
    | some c =>
      have hkey := find_key hc
      have hnone : (ws.find? fun w => w.expects c) = none := by
        rw [List.find?_eq_none]
        intro w hw he
        simp only [Cell.expects,Bool.and_eq_true,decide_eq_true_eq] at he
        exact hk (List.mem_map.mpr ⟨w,hw,he.1.symm.trans hkey⟩)
      simp [hfdef,hnone]

theorem Written.nil (store : List (Cell κ α)) : Written store store [] :=
  ⟨rfl,fun _ h => absurd h List.not_mem_nil,fun _ h => absurd h List.not_mem_nil,fun _ _ => rfl⟩

theorem Written.append {store'' vs : List (Cell κ α)} (h : Written store store' ws)
    (h' : Written store' store'' vs) (hd : ∀ w ∈ ws, w.key ∉ vs.map Cell.key) : Written store store'' (ws ++ vs) := by
  have hvs : ∀ v ∈ vs, v.key ∉ ws.map Cell.key := by
    intro v hv hmem
    obtain ⟨w,hw,hkey⟩ := List.mem_map.mp hmem
    exact hd w hw (List.mem_map.mpr ⟨v,hv,hkey.symm⟩)
  refine ⟨h'.keys.trans h.keys,fun w hw => ?_,fun w hw => ?_,fun k hk => ?_⟩
  · rcases List.mem_append.mp hw with hw | hw
    · exact h.matched w hw
    · rw [← h.kept _ (hvs w hw)]
      exact h'.matched w hw
  · rcases List.mem_append.mp hw with hw | hw
    · rw [h'.kept _ (hd w hw)]
      exact h.written w hw
    · exact h'.written w hw
  · rw [List.map_append,List.mem_append,not_or] at hk
    rw [h'.kept _ hk.2,h.kept _ hk.1]

theorem Written.fresh (h : Written store store' ws)
    (hs : Fresh store s) : Fresh store' s := by
  intro c hc
  by_cases hk : s.key ∈ ws.map Cell.key
  · obtain ⟨w,hw,hkey⟩ := List.mem_map.mp hk
    obtain ⟨c₀,hc₀,hv⟩ := h.matched w hw
    have hle := (hs c₀ (hkey ▸ hc₀)).1
    rw [← hkey,h.written w hw] at hc
    cases hc
    exact ⟨by simp only; omega,fun he => by simp only at he; omega⟩
  · rw [h.kept _ hk] at hc
    exact hs c hc

theorem Written.saw (h : Written store store' ws) {w : Cell κ α}
    (hs : Fresh store s) (hw : w ∈ ws) (hkey : w.key = s.key) (hversion : w.version = s.version) :
    lookup store s.key = some s ∧ lookup store' s.key = some ⟨s.key,s.version+1,w.value⟩ := by
  obtain ⟨c,hc,hv⟩ := h.matched w hw
  rw [hkey] at hc
  have hvalue := (hs c hc).2 (by omega)
  have hc' : c = s := by
    obtain ⟨k,v,x⟩ := c
    have hk := find_key hc
    simp only at hk hv hvalue
    rw [hk,hv,hversion,← hvalue]
  exact ⟨hc' ▸ hc,hkey ▸ hversion ▸ h.written w hw⟩

theorem Written.stale (h : Written store store' ws) {w : Cell κ α}
    (hs : Fresh store s) (hw : w ∈ ws) (hkey : w.key = s.key) :
    ∀ c, lookup store' s.key = some c → c.version ≠ s.version := by
  intro c hc
  obtain ⟨c₀,hc₀,hv⟩ := h.matched w hw
  have hle := (hs c₀ (hkey ▸ hc₀)).1
  rw [← hkey,h.written w hw] at hc
  cases hc
  simp only
  omega

end LedgerForge.VersionedStore
