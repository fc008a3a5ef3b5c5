import Mathlib.Tactic

/-! # Length-delimited byte strings

Every field is preceded by its length as a fixed number of bytes. A sequence of fields can be read back, so that
equal bytes mean equal sequences.
-/

namespace LedgerForge.Framing

open List

abbrev Bytes := List UInt8

def bigEndian : ℕ → ℕ → Bytes
  | 0, _ => []
  | k+1, n => bigEndian k (n/256) ++ [UInt8.ofNat (n % 256)]

@[simp] theorem length_bigEndian (k n : ℕ) : (bigEndian k n).length = k := by
  induction k generalizing n with
  | zero => rfl
  | succ k ih => rw [bigEndian,length_append,ih,length_singleton]

theorem bigEndian_mod {k m n : ℕ} (h : bigEndian k m = bigEndian k n) : m % 256^k = n % 256^k := by
  induction k generalizing m n with
  | zero => simp [Nat.mod_one]
  | succ k ih =>
    obtain ⟨hhigh,hlow⟩ := append_inj' h rfl
    have hdigit : m % 256 = n % 256 := by
      have hbyte := congrArg UInt8.toNat (singleton_inj.mp hlow)
      simpa using hbyte
    rw [pow_succ',Nat.mod_mul,Nat.mod_mul,ih hhigh,hdigit]

variable {k : ℕ}

def frame (k : ℕ) (f : Bytes) : Bytes := bigEndian k f.length ++ f

def frames (k : ℕ) (fs : List Bytes) : Bytes := fs.flatMap (frame k)

@[simp] theorem frames_cons (f : Bytes) (fs : List Bytes) : frames k (f :: fs) = frame k f ++ frames k fs := rfl

theorem length_frame (f : Bytes) : (frame k f).length = k+f.length := by
  rw [frame,length_append,length_bigEndian]

theorem length_le_frames {f : Bytes} {fs : List Bytes} (h : f ∈ fs) : f.length ≤ (frames k fs).length := by
  induction fs with
  | nil => exact absurd h not_mem_nil
  | cons g fs ih =>
    rw [frames_cons,length_append,length_frame]
    rcases mem_cons.mp h with rfl | h
    · omega
    · have := ih h
      omega

theorem frame_append_inj {f g rest rest' : Bytes} (hf : f.length < 256^k) (hg : g.length < 256^k)
    (h : frame k f ++ rest = frame k g ++ rest') : f = g ∧ rest = rest' := by
  rw [frame,frame,append_assoc,append_assoc] at h
  obtain ⟨hlength,hrest⟩ := append_inj h (by rw [length_bigEndian,length_bigEndian])
  have hmod := bigEndian_mod hlength
  rw [Nat.mod_eq_of_lt hf,Nat.mod_eq_of_lt hg] at hmod
  exact append_inj hrest hmod

theorem frames_injective {fs gs : List Bytes} (hk : 0 < k) (hf : ∀ f ∈ fs, f.length < 256^k)
    (hg : ∀ g ∈ gs, g.length < 256^k) (h : frames k fs = frames k gs) : fs = gs := by
  have hempty : ∀ f r, frame k f ++ r ≠ [] := by
    intro f r hnil
    have := congrArg List.length hnil
    rw [length_append,length_frame,length_nil] at this
    omega
  induction fs generalizing gs with
  | nil =>
    cases gs with
    | nil => rfl
    | cons g gs => exact absurd h.symm (hempty g _)
  | cons f fs ih =>
    cases gs with
    | nil => exact absurd h (hempty f _)
    | cons g gs =>
      obtain ⟨rfl,hrest⟩ := frame_append_inj (hf f mem_cons_self) (hg g mem_cons_self) h
      rw [ih (fun x hx => hf x (mem_cons_of_mem _ hx)) (fun x hx => hg x (mem_cons_of_mem _ hx)) hrest]

end LedgerForge.Framing
