import LedgerForge.Model.Materialise

/-! # Amounts as text and back

The decimal text of an amount has enough places to find the amount again: all of them if the division by the precision
ends, and more than the precision has digits if it does not.
-/

namespace LedgerForge.Transaction

open Decimal Int

theorem divideOut_eq (factor fuel n : ℕ) : n = factor^(divideOut factor fuel n).1*(divideOut factor fuel n).2 := by
  induction fuel generalizing n with
  | zero => simp [divideOut]
  | succ fuel ih =>
    rw [divideOut]
    split
    · rename_i hdvd
      have hrest := ih (n/factor)
      rw [pow_succ',mul_assoc,← hrest,Nat.mul_div_cancel' (Nat.dvd_of_mod_eq_zero hdvd)]
    · simp

theorem decimalPlaces_spec (n : ℤ) : n.natAbs ∣ 10^decimalPlaces n ∨ n.natAbs < 10^decimalPlaces n := by
  unfold decimalPlaces
  dsimp only
  split
  · right
    have hdigits : n.natAbs < 10^(Nat.toDigits 10 n.natAbs).length :=
      (Nat.length_toDigits_le_iff (by decide) Nat.length_toDigits_pos).mp le_rfl
    exact hdigits.trans_le (Nat.pow_le_pow_right (by decide) (Nat.le_add_right _ _))
  left
  rename_i hrest
  have htwos := divideOut_eq 2 (n.natAbs.log2+1) n.natAbs
  have hfives := divideOut_eq 5 (n.natAbs.log2+1) (divideOut 2 (n.natAbs.log2+1) n.natAbs).2
  rw [not_not.mp hrest,mul_one] at hfives
  rw [hfives] at htwos
  rw [show 10 = 2*5 from rfl,mul_pow]
  conv_lhs => rw [htwos]
  exact Nat.mul_dvd_mul (pow_dvd_pow _ (le_max_left _ _)) (pow_dvd_pow _ (le_max_right _ _))

theorem integral_of_valid {x : Float64} (h : validatePrecision x = .ok ()) (hpos : 0 < x.decimal.coef) :
    0 < x.decimal.bigInt ∧ x.decimal.value = x.decimal.bigInt := by
  have hvalue : x.decimal.value = x.decimal.value.num := by
    cases x with
    | nan => cases hpos
    | inf neg => cases hpos
    | finite d hd =>
      have hsome : (if d.value.den = 1 then some d.value.num else none).isNone = false := by
        simp only [validatePrecision,ite_eq_right_iff,reduceCtorEq,imp_false,Bool.not_eq_true,Bool.or_eq_false_iff] at h
        exact h.2
      by_cases hden : d.value.den = 1
      · exact (Rat.coe_int_num_of_den_eq_one hden).symm
      · rw [if_neg hden] at hsome
        cases hsome
  have hbig : x.decimal.bigInt = x.decimal.value.num := by
    rw [bigInt_eq_floor hpos.le,hvalue,floor_intCast,Rat.num_intCast]
  rw [hbig]
  exact ⟨Rat.num_pos.mpr (lt_of_le_of_ne (value_nonneg_iff.mpr hpos.le) fun hz => hpos.ne' (value_eq_zero_iff.mp hz.symm)),hvalue⟩

/-- Multiplied back, the rounded quotient is less than half a minor unit away from the amount. -/
theorem abs_majorDecimal_sub_lt {x : Float64} {a : ℤ} (ha : 0 ≤ a) (h : validatePrecision x = .ok ()) (hpos : 0 < x.decimal.coef) :
    |(majorDecimal a x).value*x.decimal.value-a| < 1/2 := by
  obtain ⟨hn,hvalue⟩ := integral_of_valid h hpos
  have herror := abs_divRound_sub_le (a := .ofInt a) ha hpos (decimalPlaces x.decimal.bigInt)
  have hplaces := decimalPlaces_spec x.decimal.bigInt
  rw [← majorDecimal,hvalue,value_ofInt,zpow_natCast] at herror
  rw [hvalue,value,tenPow_eq,show (majorDecimal a x).exp = -(decimalPlaces x.decimal.bigInt) from divRound_exp ..,zpow_neg,
    zpow_natCast]
  generalize x.decimal.bigInt = n at hn herror hplaces
  generalize (majorDecimal a x).coef = m at herror
  generalize decimalPlaces n = places at herror hplaces
  have hn' : (0 : ℚ) < n := cast_pos.mpr hn
  have hten : (0 : ℚ) < 10^places := by positivity
  rcases hplaces with ⟨k,hk⟩ | hlt
  · -- The quotient has no more places than are kept, so that nothing is cut.
    have hk' : (10 : ℚ)^places = n*k := by
      have := congrArg (Nat.cast : ℕ → ℤ) hk
      rw [Nat.cast_mul,natAbs_of_nonneg hn.le] at this
      exact_mod_cast this
    have hm : m = a*k := by
      have hexact : (a : ℚ)/n*10^places = (a*k : ℤ) := by
        rw [hk']
        push_cast
        field_simp
      rw [hexact,← cast_sub,← cast_abs] at herror
      have hlt : ((|m-a*k| : ℤ) : ℚ) < 1 := herror.trans_lt (by norm_num)
      have hzero := abs_lt_one_iff.mp (by exact_mod_cast hlt)
      omega
    have hk0 : (k : ℚ) ≠ 0 := right_ne_zero_of_mul (hk' ▸ hten.ne')
    have hzero : (m : ℚ)*(10^places)⁻¹*n-a = 0 := by
      rw [hm,hk',sub_eq_zero]
      push_cast
      field_simp
    rw [hzero]
    norm_num
  · have hlt' : (n : ℚ) < 10^places := by
      have : (n.natAbs : ℤ) < 10^places := by exact_mod_cast hlt
      rw [natAbs_of_nonneg hn.le] at this
      exact_mod_cast this
    have hscaled : (m : ℚ)*(10^places)⁻¹*n-a = n/10^places*(m-a/n*10^places) := by field_simp
    rw [hscaled,abs_mul,abs_of_pos (div_pos hn' hten)]
    calc n/10^places*|(m : ℚ)-a/n*10^places| ≤ n/10^places*(1/2) := mul_le_mul_of_nonneg_left herror (div_pos hn' hten).le
      _ < 1*(1/2) := mul_lt_mul_of_pos_right ((div_lt_one hten).mpr hlt') (by norm_num)
      _ = 1/2 := one_mul _

theorem parseAmount_majorText {x : Float64} {a : ℤ} (ha : 0 < a) (h : validatePrecision x = .ok ()) (hscale : x.orOne = x)
    (hlength : (majorText a x).utf8ByteSize ≤ 4096) : parseAmount (majorText a x) x = .ok a := by
  have hpos := precision_pos h hscale
  have hcoef : 0 ≤ (majorDecimal a x).coef := divRound_coef_nonneg ha.le hpos.le _
  have hexp : -(majorDecimal a x).exp ≤ 2000 := by
    have hplaces := decimalPlaces_le x
    rw [majorDecimal,divRound_exp]
    omega
  obtain ⟨v,hv,hvalue⟩ := parseMonetaryDecimal_text hcoef hlength hexp
  have hclose := abs_majorDecimal_sub_lt ha.le h hpos
  have hv0 : 0 < v.coef := by
    refine lt_of_le_of_ne (value_nonneg_iff.mp (hvalue ▸ value_nonneg_iff.mpr hcoef)) fun hzero => ?_
    rw [← hvalue,value_eq_zero_iff.mpr hzero.symm,zero_mul,zero_sub,abs_neg,← cast_abs] at hclose
    have hlt : ((|a| : ℤ) : ℚ) < 1 := hclose.trans (by norm_num)
    have hzero := abs_lt_one_iff.mp (by exact_mod_cast hlt)
    omega
  have hminor : ((v.mul x.decimal).round 0).bigInt = a := by
    refine bigInt_round (mul_nonneg hv0.le hpos.le) ?_
    rw [value_mul,hvalue]
    exact hclose
  rw [parseAmount,h,majorText,hv,hscale]
  dsimp only
  rw [hminor]
  exact (if_neg (not_le.mpr hv0)).trans (if_neg (not_le.mpr ha))

theorem resolvedAmount_nonneg (t : Transaction) : 0 ≤ t.resolvedAmount := by
  unfold resolvedAmount convertDecimalToPrecise
  split
  · exact le_of_lt ‹_›
  split
  · exact le_rfl
  rename_i amount hparse
  obtain ⟨_,-,hparse⟩ := bind_ok hparse
  split at hparse
  · cases hparse
  split_ifs at hparse
  dsimp only at hparse
  split_ifs at hparse with hminor
  exact Except.ok.inj hparse ▸ (not_le.mp hminor).le

/-- A second conversion leaves the transaction as it is. -/
theorem applyPrecision_again (t : Transaction) :
    t.applyPrecision.2.applyPrecision.2 = t.applyPrecision.2 := by
  cases h : t.validateMonetaryFields with
  | error e =>
    rw [applyPrecision_of_invalid h]
    exact congrArg Prod.snd (applyPrecision_of_invalid h)
  | ok =>
    rw [applyPrecision_of_valid h]
    cases h' : (t.materialise t.resolvedAmount).validateMonetaryFields with
    | error e => rw [applyPrecision_of_invalid h']
    | ok =>
      have hm : (t.materialise t.resolvedAmount).Materialised t.resolvedAmount := materialised_materialise (validTerms_of_valid h) _
      rw [applyPrecision_of_valid h',hm.resolvedAmount_eq t.resolvedAmount_nonneg,materialise_materialise]

/-- Two minor units of a seventh each. -/
def twoSevenths : Transaction :=
  ⟨"txn_1","",.economic,"","bln_a","bln_b","x","USD",.ofInt 0,"",some 2,.ofInt 7,.ofInt 0,.ofInt 0,.applied,.unset,false,false,
    false,false,false⟩

end LedgerForge.Transaction
