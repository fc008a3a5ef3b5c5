import Mathlib.Data.List.DropRight
import Mathlib.Tactic

/-! # Arbitrary-precision decimals

A decimal is an integer coefficient times a power of ten. Multiplication is exact, division is
rounded half away from zero at a chosen number of places, and the text form is positional with
trailing fractional zeros removed.
-/

namespace LedgerForge

open List Nat Int

/-- An integer coefficient times a power of ten. -/
structure Decimal where
  coef : ℤ
  exp : ℤ
deriving DecidableEq

namespace Decimal

/-- The rational `10 ^ e`, by cases on the sign so that it evaluates by natural powers. -/
def tenPow : ℤ → ℚ
  | .ofNat n => ((10 ^ n : ℕ) : ℚ)
  | .negSucc n => mkRat 1 (10 ^ (n+1))

theorem tenPow_eq (e : ℤ) : tenPow e = (10 : ℚ) ^ e := by
  cases e with
  | ofNat n => simp [tenPow]
  | negSucc n => simp [tenPow,Rat.mkRat_eq_div,zpow_negSucc]

theorem tenPow_pos (e : ℤ) : 0 < tenPow e := by
  rw [tenPow_eq]
  positivity

def value (d : Decimal) : ℚ := d.coef * tenPow d.exp

def ofInt (n : ℤ) : Decimal := ⟨n,0⟩

@[simp] theorem value_ofInt (n : ℤ) : (ofInt n).value = n := by
  simp [value,ofInt,tenPow_eq]

def sign (d : Decimal) : ℤ := d.coef.sign

def mul (a b : Decimal) : Decimal := ⟨a.coef*b.coef,a.exp+b.exp⟩

def rescale (d : Decimal) (e : ℤ) : Decimal :=
  if e ≤ d.exp then ⟨d.coef*10^(d.exp-e).toNat,e⟩ else ⟨d.coef.tdiv (10^(e-d.exp).toNat),e⟩

def round (d : Decimal) (places : ℤ) : Decimal :=
  if d.exp = -places then d else
    let truncated := (d.rescale (-places-1)).coef
    let shifted := if truncated < 0 then truncated-5 else truncated+5
    ⟨shifted.tdiv 10,-places⟩

def bigInt (d : Decimal) : ℤ := (d.rescale 0).coef

def quotientParts (a b : Decimal) (places : ℤ) : ℤ × ℤ :=
  let e := a.exp-b.exp+places
  if e < 0 then (a.coef,b.coef*10^(-e).toNat) else (a.coef*10^e.toNat,b.coef)

def divRound (a b : Decimal) (places : ℤ) : Decimal :=
  let parts := quotientParts a b places
  let q := parts.1.tdiv parts.2
  if 2*|parts.1.tmod parts.2| < |parts.2| then ⟨q,-places⟩
  else if a.coef.sign*b.coef.sign < 0 then ⟨q-1,-places⟩ else ⟨q+1,-places⟩

theorem quotientParts_nonneg {a b : Decimal} (ha : 0 ≤ a.coef) (hb : 0 ≤ b.coef) (places : ℤ) :
    0 ≤ (quotientParts a b places).1 ∧ 0 ≤ (quotientParts a b places).2 := by
  simp only [quotientParts]
  split
  · exact ⟨ha,by positivity⟩
  · exact ⟨by positivity,hb⟩

theorem divRound_coef_nonneg {a b : Decimal} (ha : 0 ≤ a.coef) (hb : 0 ≤ b.coef) (places : ℤ) :
    0 ≤ (divRound a b places).coef := by
  obtain ⟨hnum,hden⟩ := quotientParts_nonneg ha hb places
  have hq := Int.tdiv_nonneg hnum hden
  have hsign : ¬ a.coef.sign*b.coef.sign < 0 :=
    not_lt.mpr (mul_nonneg (Int.sign_nonneg_iff.mpr ha) (Int.sign_nonneg_iff.mpr hb))
  rw [divRound]
  split
  · exact hq
  · exact add_nonneg hq one_pos.le

@[simp] theorem divRound_exp (a b : Decimal) (places : ℤ) : (divRound a b places).exp = -places := by
  rw [divRound]
  split
  · rfl
  · split <;> rfl

def pointDigits (d : Decimal) : List Char × List Char :=
  let str := toDigits 10 d.coef.natAbs
  let k := (-d.exp).toNat
  if k < str.length then (str.take (str.length-k),str.drop (str.length-k))
  else (['0'],List.replicate (k-str.length) '0' ++ str)

def textDigits (d : Decimal) : List Char × List Char :=
  if 0 ≤ d.exp then (toDigits 10 (d.rescale 0).coef.natAbs,[])
  else (d.pointDigits.1,d.pointDigits.2.rdropWhile (· = '0'))

def joinDigits (neg : Bool) (digits : List Char × List Char) : List Char :=
  (if neg then ['-'] else []) ++ digits.1 ++ (if digits.2 = [] then [] else '.' :: digits.2)

/-- Positional text without trailing fractional zeros. -/
def text (d : Decimal) : String := String.ofList (joinDigits (d.coef < 0) d.textDigits)

def groupsValue (digits : List Char × List Char) : ℚ :=
  (ofDigitChars 10 (digits.1++digits.2) 0 : ℚ) / 10^digits.2.length

/-- Digit groups as a scanner expects them: decimal digits, some before the point. -/
structure WellFormedGroups (digits : List Char × List Char) : Prop where
  whole : ∀ c ∈ digits.1, c.isDigit = true
  fraction : ∀ c ∈ digits.2, c.isDigit = true
  nonempty : digits.1 ≠ []

theorem toDigits_isDigit (n : ℕ) : ∀ c ∈ toDigits 10 n, c.isDigit = true := fun _ hc =>
  isDigit_of_mem_toDigits (by decide) (by decide) hc

theorem toDigits_ne_nil (n : ℕ) : toDigits 10 n ≠ [] :=
  ne_nil_of_length_pos length_toDigits_pos

theorem pointDigits_wellFormed (d : Decimal) : WellFormedGroups d.pointDigits := by
  simp only [pointDigits]
  split
  · refine ⟨fun c hc => toDigits_isDigit _ c (mem_of_mem_take hc),
      fun c hc => toDigits_isDigit _ c (mem_of_mem_drop hc),?_⟩
    apply ne_nil_of_length_pos
    rw [length_take]
    omega
  · refine ⟨by simp,fun c hc => ?_,cons_ne_nil _ _⟩
    rcases mem_append.mp hc with h | h
    · rw [eq_of_mem_replicate h]
      decide
    · exact toDigits_isDigit _ c h

theorem textDigits_wellFormed (d : Decimal) : WellFormedGroups d.textDigits := by
  rw [textDigits]
  split
  · exact ⟨toDigits_isDigit _,fun _ hc => absurd hc not_mem_nil,toDigits_ne_nil _⟩
  · have h := d.pointDigits_wellFormed
    exact ⟨h.whole,fun c hc => h.fraction c (( rdropWhile_prefix _ _).subset hc),h.nonempty⟩

theorem rdropWhile_zeros (l : List Char) : ∃ n, l = l.rdropWhile (· = '0') ++ List.replicate n '0' := by
  refine ⟨(l.rtakeWhile (· = '0')).length,?_⟩
  have hz : l.rtakeWhile (· = '0') = List.replicate (l.rtakeWhile (· = '0')).length '0' :=
    eq_replicate_iff.mpr ⟨rfl,fun c hc => by simpa using mem_rtakeWhile_imp hc⟩
  rw [← hz,rdropWhile_append_rtakeWhile]

theorem groupsValue_append_zeros (whole fraction : List Char) (n : ℕ) :
    groupsValue (whole,fraction ++ List.replicate n '0') = groupsValue (whole,fraction) := by
  simp only [groupsValue,length_append,length_replicate,← append_assoc,
    ofDigitChars_append,ofDigitChars_replicate_zero,pow_add]
  push_cast
  field_simp

theorem pointDigits_digits (d : Decimal) :
    ofDigitChars 10 (d.pointDigits.1++d.pointDigits.2) 0 = d.coef.natAbs ∧
      d.pointDigits.2.length = (-d.exp).toNat := by
  simp only [pointDigits]
  split
  · refine ⟨by rw [take_append_drop,ofDigitChars_ten_toDigits],?_⟩
    rw [length_drop]
    omega
  rename_i hk
  constructor
  · rw [ofDigitChars_append,ofDigitChars_append]
    simp [ofDigitChars_cons]
  · simp only [length_append,length_replicate]
    omega

theorem abs_value_of_exp_neg (d : Decimal) (h : d.exp < 0) :
    |d.value| = (d.coef.natAbs : ℚ)/10^(-d.exp).toNat := by
  rw [value,abs_mul,abs_of_pos (tenPow_pos d.exp),tenPow_eq,← cast_abs,abs_eq_natAbs,div_eq_mul_inv,
    ← zpow_natCast,← zpow_neg,toNat_of_nonneg (by omega),neg_neg]
  rfl

theorem abs_value_of_exp_nonneg (d : Decimal) (h : 0 ≤ d.exp) :
    |d.value| = ((d.rescale 0).coef.natAbs : ℚ) := by
  obtain ⟨k,hk⟩ := eq_ofNat_of_zero_le h
  have hcoef : (d.rescale 0).coef = d.coef*10^k := by simp [rescale,hk]
  rw [← cast_natCast,hcoef,value,tenPow_eq,hk]
  push_cast
  rfl

theorem textDigits_whole_length {d : Decimal} {n : ℕ} (hn : 0 < n) (h : |d.value| < 10^n) :
    d.textDigits.1.length ≤ n := by
  rw [textDigits]
  split
  · rename_i hexp
    rw [abs_value_of_exp_nonneg d hexp] at h
    exact (length_toDigits_le_iff (by decide) hn).mpr (by exact_mod_cast h)
  rename_i hexp
  rw [abs_value_of_exp_neg d (not_le.mp hexp),div_lt_iff₀ (by positivity),← pow_add] at h
  have hlen : (toDigits 10 d.coef.natAbs).length ≤ n+(-d.exp).toNat :=
    (length_toDigits_le_iff (by decide) (by omega)).mpr (by exact_mod_cast h)
  simp only [pointDigits]
  split
  · rw [length_take]
    omega
  · exact hn

theorem textDigits_fraction_length (d : Decimal) : d.textDigits.2.length ≤ (-d.exp).toNat := by
  rw [textDigits]
  split
  · exact zero_le _
  · exact ( rdropWhile_prefix _ _).length_le.trans_eq (pointDigits_digits d).2

theorem groupsValue_textDigits (d : Decimal) : groupsValue d.textDigits = |d.value| := by
  rw [textDigits]
  split
  · rename_i h
    simp [groupsValue,abs_value_of_exp_nonneg d h,ofDigitChars_ten_toDigits]
  rename_i h
  obtain ⟨n,hn⟩ := rdropWhile_zeros d.pointDigits.2
  rw [← groupsValue_append_zeros _ _ n,← hn]
  rw [groupsValue,d.pointDigits_digits.1,d.pointDigits_digits.2,abs_value_of_exp_neg d (not_le.mp h)]

theorem text_of_coef_zero {d : Decimal} (h : d.coef = 0) : d.text = "0" := by
  have hdigits : d.textDigits = (['0'],[]) := by
    rw [textDigits]
    split
    · rename_i hexp
      simp [rescale,hexp,h]
    have hk : ¬ (-d.exp).toNat < 1 := by omega
    have hzeros : List.replicate ((-d.exp).toNat-1) '0' ++ ['0'] = List.replicate ((-d.exp).toNat-1+1) '0' :=
      replicate_succ'.symm
    simp [pointDigits,h,hk,hzeros]
  rw [text,hdigits,h]
  rfl

end Decimal
end LedgerForge
