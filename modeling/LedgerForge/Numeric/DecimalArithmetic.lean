import LedgerForge.Numeric.Decimal

/-! # Exact operations on decimals

Sums, differences and comparisons bring both decimals to the smaller exponent, which loses no digits.
-/

namespace LedgerForge.Decimal

open Int

def add (a b : Decimal) : Decimal :=
  let e := min a.exp b.exp
  ⟨(a.rescale e).coef+(b.rescale e).coef,e⟩

def sub (a b : Decimal) : Decimal :=
  let e := min a.exp b.exp
  ⟨(a.rescale e).coef-(b.rescale e).coef,e⟩

def cmp (a b : Decimal) : Ordering :=
  let e := min a.exp b.exp
  compare (a.rescale e).coef (b.rescale e).coef

def shift (d : Decimal) (n : ℤ) : Decimal := ⟨d.coef,d.exp+n⟩

def abs (d : Decimal) : Decimal := ⟨|d.coef|,d.exp⟩

variable {a b d : Decimal}

theorem coef_rescale {e : ℤ} (h : e ≤ d.exp) : ((d.rescale e).coef : ℚ)*tenPow e = d.value := by
  rw [rescale,if_pos h,value,tenPow_eq,tenPow_eq]
  push_cast
  rw [mul_assoc,← zpow_natCast,← zpow_add₀ (by norm_num)]
  congr 2
  omega

@[simp] theorem value_add (a b : Decimal) : (a.add b).value = a.value+b.value := by
  rw [← coef_rescale (min_le_left a.exp b.exp),← coef_rescale (min_le_right a.exp b.exp),← add_mul,value,add]
  push_cast
  rfl

@[simp] theorem value_sub (a b : Decimal) : (a.sub b).value = a.value-b.value := by
  rw [← coef_rescale (min_le_left a.exp b.exp),← coef_rescale (min_le_right a.exp b.exp),← sub_mul,value,sub]
  push_cast
  rfl

@[simp] theorem value_mul (a b : Decimal) : (a.mul b).value = a.value*b.value := by
  simp only [value,mul,tenPow_eq,zpow_add₀ (by norm_num : (10 : ℚ) ≠ 0)]
  push_cast
  ring

@[simp] theorem value_shift (d : Decimal) (n : ℤ) : (d.shift n).value = d.value*10^n := by
  simp only [value,shift,tenPow_eq,zpow_add₀ (by norm_num : (10 : ℚ) ≠ 0)]
  ring

@[simp] theorem value_abs (d : Decimal) : d.abs.value = |d.value| := by
  rw [value,value,abs_mul,abs_of_pos (tenPow_pos d.exp),abs,cast_abs]

theorem value_nonneg_iff : 0 ≤ d.value ↔ 0 ≤ d.coef := by
  rw [value,mul_nonneg_iff_of_pos_right (tenPow_pos _)]
  exact_mod_cast Iff.rfl

theorem value_eq_zero_iff : d.value = 0 ↔ d.coef = 0 := by
  rw [value,mul_eq_zero,or_iff_left (tenPow_pos _).ne',Int.cast_eq_zero]

theorem sign_pos_iff : 0 < d.sign ↔ 0 < d.value := by
  rw [sign,Int.sign_pos_iff,value,mul_pos_iff_of_pos_right (tenPow_pos _),Int.cast_pos]

theorem cmp_eq (a b : Decimal) : a.cmp b = compare a.value b.value := by
  have hpos := tenPow_pos (min a.exp b.exp)
  rw [← coef_rescale (min_le_left a.exp b.exp),← coef_rescale (min_le_right a.exp b.exp),cmp]
  rcases lt_trichotomy (a.rescale (min a.exp b.exp)).coef (b.rescale (min a.exp b.exp)).coef with h | h | h
  · rw [compare_lt_iff_lt.mpr h,compare_lt_iff_lt.mpr]
    exact mul_lt_mul_of_pos_right (by exact_mod_cast h) hpos
  · rw [compare_eq_iff_eq.mpr h,h,compare_eq_iff_eq.mpr rfl]
  · rw [compare_gt_iff_gt.mpr h,compare_gt_iff_gt.mpr]
    exact mul_lt_mul_of_pos_right (by exact_mod_cast h) hpos

theorem cmp_gt_iff : a.cmp b = .gt ↔ b.value < a.value := by
  rw [cmp_eq,compare_gt_iff_gt]

theorem cmp_lt_iff : a.cmp b = .lt ↔ a.value < b.value := by
  rw [cmp_eq,compare_lt_iff_lt]

theorem add_ofInt (m n : ℤ) : (ofInt m).add (ofInt n) = ofInt (m+n) := by
  simp [add,ofInt,rescale]

theorem sub_ofInt (m n : ℤ) : (ofInt m).sub (ofInt n) = ofInt (m-n) := by
  simp [sub,ofInt,rescale]

@[simp] theorem bigInt_ofInt (n : ℤ) : (ofInt n).bigInt = n := by
  simp [bigInt,ofInt,rescale]

theorem bigInt_eq_floor (h : 0 ≤ d.coef) : d.bigInt = ⌊d.value⌋ := by
  by_cases hexp : 0 ≤ d.exp
  · have hvalue := coef_rescale hexp
    rw [tenPow_eq,zpow_zero,mul_one] at hvalue
    rw [← hvalue,floor_intCast,bigInt]
  have hscale : d.value = d.coef/((10^(-d.exp).toNat : ℕ)) := by
    rw [value,tenPow_eq,eq_div_iff (by positivity),mul_assoc,Nat.cast_pow,← zpow_natCast,Nat.cast_ofNat,
      ← zpow_add₀ (by norm_num),toNat_of_nonneg (by omega),add_neg_cancel,zpow_zero,mul_one]
  rw [hscale,Rat.floor_intCast_div_natCast,bigInt,rescale,if_neg hexp,zero_sub,tdiv_eq_ediv_of_nonneg h]
  rfl

theorem quotientParts_value {a b : Decimal} (hb : b.coef ≠ 0) (places : ℤ) :
    ((quotientParts a b places).1 : ℚ)/(quotientParts a b places).2 = a.value/b.value*10^places := by
  have hscale : a.value/b.value*10^places = (a.coef/b.coef)*10^(a.exp-b.exp+places) := by
    rw [value,value,tenPow_eq,tenPow_eq,zpow_add₀ (by norm_num),zpow_sub₀ (by norm_num)]
    field_simp
  rw [hscale,quotientParts]
  split
  · have hpow : 10^(a.exp-b.exp+places) = ((10 : ℚ)^(-(a.exp-b.exp+places)).toNat)⁻¹ := by
      rw [← zpow_natCast,← zpow_neg,toNat_of_nonneg (by omega),neg_neg]
    rw [hpow]
    push_cast
    field_simp
  · rename_i hnonneg
    have hpow : 10^(a.exp-b.exp+places) = (10 : ℚ)^(a.exp-b.exp+places).toNat := by
      rw [← zpow_natCast,toNat_of_nonneg (not_lt.mp hnonneg)]
    rw [hpow]
    push_cast
    field_simp

/-- Rounded division is off by at most half a unit of the last place. -/
theorem abs_divRound_sub_le {a b : Decimal} (ha : 0 ≤ a.coef) (hb : 0 < b.coef) (places : ℤ) :
    |((divRound a b places).coef : ℚ)-a.value/b.value*10^places| ≤ 1/2 := by
  obtain ⟨hnum,hden⟩ := quotientParts_nonneg ha hb.le places
  have hvalue := quotientParts_value (a := a) hb.ne' places
  have hsign : ¬ a.coef.sign*b.coef.sign < 0 :=
    not_lt.mpr (mul_nonneg (sign_nonneg_iff.mpr ha) (sign_nonneg_iff.mpr hb.le))
  have hpos : 0 < (quotientParts a b places).2 := by
    refine lt_of_le_of_ne hden (Ne.symm ?_)
    unfold quotientParts
    dsimp only
    split
    · positivity
    · exact hb.ne'
  rw [← hvalue,divRound]
  generalize (quotientParts a b places).1 = n at hnum
  generalize (quotientParts a b places).2 = d at hpos
  have hd : (0 : ℚ) < d := cast_pos.mpr hpos
  rw [tdiv_eq_ediv_of_nonneg hnum,tmod_eq_emod_of_nonneg hnum,abs_of_nonneg (emod_nonneg n hpos.ne'),
    abs_of_pos hpos]
  have hsplit : n/d = (n/d : ℤ)+((n%d : ℤ) : ℚ)/d := by
    have hdiv : ((d*(n/d)+n%d : ℤ) : ℚ) = n := congrArg _ (mul_ediv_add_emod n d)
    rw [← hdiv]
    push_cast
    field_simp
  have hlow : 0 ≤ ((n%d : ℤ) : ℚ)/d := div_nonneg (cast_nonneg (emod_nonneg n hpos.ne')) hd.le
  have hhigh : ((n%d : ℤ) : ℚ)/d < 1 := (div_lt_one hd).mpr (cast_lt.mpr (emod_lt_of_pos n hpos))
  split
  · rename_i hless
    have hhalf : ((n%d : ℤ) : ℚ)/d ≤ 1/2 := by
      rw [div_le_iff₀ hd]
      have : 2*((n%d : ℤ) : ℚ) < d := by exact_mod_cast hless
      linarith
    rw [abs_le]
    constructor <;> linarith
  · rename_i hmore
    have hhalf : 1/2 ≤ ((n%d : ℤ) : ℚ)/d := by
      rw [le_div_iff₀ hd]
      have : (d : ℚ) ≤ 2*(n%d : ℤ) := by exact_mod_cast not_lt.mp hmore
      linarith
    rw [abs_le]
    push_cast
    constructor <;> linarith

/-- A value within half a unit of an integer rounds to it. -/
theorem bigInt_round {n : ℤ} (hd : 0 ≤ d.coef) (h : |d.value-n| < 1/2) : (d.round 0).bigInt = n := by
  obtain ⟨hlow,hhigh⟩ := abs_lt.mp h
  unfold round
  split
  · rename_i hexp
    have hvalue : d.value = d.coef := by
      rw [value,tenPow_eq,hexp,neg_zero,zpow_zero,mul_one]
    rw [bigInt_eq_floor hd,hvalue,floor_intCast]
    have h1 : (n : ℚ)-1 < d.coef := by linarith
    have h2 : (d.coef : ℚ) < n+1 := by linarith
    norm_cast at h1 h2
    omega
  · have htruncated : (d.rescale (-0-1)).coef = ⌊d.value*10⌋ := by
      have hshift : (d.rescale (-0-1)).coef = (d.shift 1).bigInt := by
        have hcase : -0-1 ≤ d.exp ↔ 0 ≤ (d.shift 1).exp := by
          change _ ↔ 0 ≤ d.exp+1
          omega
        rw [bigInt,rescale,rescale]
        by_cases hexp : 0 ≤ (d.shift 1).exp
        · rw [if_pos (hcase.mpr hexp),if_pos hexp,show d.exp-(-0-1) = (d.shift 1).exp-0 by change _ = d.exp+1-0; omega]
          rfl
        · rw [if_neg (mt hcase.mp hexp),if_neg hexp,show -0-1-d.exp = 0-(d.shift 1).exp by change _ = 0-(d.exp+1); omega]
          rfl
      rw [hshift,bigInt_eq_floor (d := d.shift 1) hd,value_shift,zpow_one]
    have hfloor : 10*n-5 ≤ ⌊d.value*10⌋ ∧ ⌊d.value*10⌋ < 10*n+5 := by
      constructor
      · rw [le_floor]
        push_cast
        linarith
      · rw [floor_lt]
        push_cast
        linarith
    have hnonneg : 0 ≤ ⌊d.value*10⌋ := floor_nonneg.mpr (mul_nonneg (value_nonneg_iff.mpr hd) (by norm_num))
    dsimp only
    rw [htruncated,if_neg (not_lt.mpr hnonneg),tdiv_eq_ediv_of_nonneg (by omega)]
    have hten : (⌊d.value*10⌋+5)/10 = n := by omega
    rw [hten]
    exact bigInt_ofInt n

end LedgerForge.Decimal
