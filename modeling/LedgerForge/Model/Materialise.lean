import LedgerForge.Library.Results
import LedgerForge.Model.Amount
import LedgerForge.Numeric.DecimalArithmetic
import Mathlib.Data.String.Basic

/-! # What precision conversion leaves behind

`applyPrecision` resolves the minor-unit amount and rewrites the decimal text and the double of the transaction. The
rewritten fields pass validation again exactly when the major-unit amount is a finite double.
-/

namespace LedgerForge

open Decimal List Float64 Bool Option Nat Int

theorem span_digits {ds : List Char} (rest : List Char) (h : ∀ c ∈ ds, c.isDigit = true)
    (hrest : ∀ c cs, rest = c :: cs → c.isDigit = false) :
    (ds ++ rest).span Char.isDigit = (ds,rest) := by
  rw [span_eq_takeWhile_dropWhile,takeWhile_append_of_pos h,dropWhile_append_of_pos h]
  cases rest with
  | nil => simp
  | cons c cs => simp [hrest c cs rfl]

theorem monetaryDecimalPattern_joinDigits {digits : List Char × List Char} (h : WellFormedGroups digits) :
    monetaryDecimalPattern (joinDigits false digits) = some ⟨false,digits.1,digits.2,none⟩ := by
  obtain ⟨whole,fraction⟩ := digits
  obtain ⟨hw,hf,hne⟩ := h
  obtain ⟨c,cs,rfl⟩ := exists_cons_of_ne_nil hne
  have hc := hw c mem_cons_self
  have hsign : ∀ rest, splitSign ((c :: cs) ++ rest) = (false,(c :: cs) ++ rest) := by
    have hminus : c ≠ '-' := by
      rintro rfl
      revert hc
      decide
    have hplus : c ≠ '+' := by
      rintro rfl
      revert hc
      decide
    simp [splitSign,hminus,hplus]
  by_cases hfraction : fraction = []
  · subst hfraction
    have hspan := span_digits [] hw (by simp)
    simp only [joinDigits,monetaryDecimalPattern,false_eq_true,if_false,nil_append,if_true,hsign,hspan]
    simp [splitExponent]
  have hspan := span_digits ('.' :: fraction) hw (by simp)
  have htail := span_digits [] hf (by simp)
  rw [append_nil] at htail
  simp only [joinDigits,monetaryDecimalPattern,false_eq_true,if_false,nil_append,hfraction,hsign,
    hspan,htail]
  simp [splitExponent]

theorem utf8Len_ascii {cs : List Char} (h : ∀ c ∈ cs, c.isDigit = true) : String.utf8Len cs = cs.length := by
  induction cs with
  | nil => rfl
  | cons c cs ih =>
    have hc : c.utf8Size = 1 := by
      obtain ⟨-,h9⟩ := Char.isDigit_iff_toNat.mp (h c mem_cons_self)
      rw [Char.utf8Size_eq_one_iff]
      exact h9.trans (by decide)
    rw [String.utf8Len_cons,ih (fun c' hc' => h c' (mem_cons_of_mem _ hc')),hc,length_cons]

theorem utf8ByteSize_joinDigits {digits : List Char × List Char} (h : WellFormedGroups digits) :
    (String.ofList (joinDigits false digits)).utf8ByteSize ≤ digits.1.length+1+digits.2.length := by
  rw [String.utf8ByteSize_ofList,joinDigits]
  simp only [false_eq_true,if_false,nil_append,String.utf8Len_append,utf8Len_ascii h.whole]
  split
  · rw [String.utf8Len_nil]
    omega
  rw [String.utf8Len_cons,utf8Len_ascii h.fraction]
  have : '.'.utf8Size = 1 := by decide
  omega

theorem utf8ByteSize_text {d : Decimal} (hd : 0 ≤ d.coef) (hvalue : |d.value| < 10^310) (hexp : -d.exp ≤ 2000) :
    d.text.utf8ByteSize ≤ 4096 := by
  have hwhole := textDigits_whole_length (by decide) hvalue
  have hfraction := d.textDigits_fraction_length
  have hsize := utf8ByteSize_joinDigits d.textDigits_wellFormed
  rw [text,decide_eq_false (not_lt.mpr hd)]
  omega

/-- The text of a decimal reads back as the same value. -/
theorem parseMonetaryDecimal_text {d : Decimal} (hd : 0 ≤ d.coef) (hsize : d.text.utf8ByteSize ≤ 4096)
    (hexp : -d.exp ≤ 2000) : ∃ v, parseMonetaryDecimal d.text = .ok v ∧ v.value = d.value := by
  have hfraction := d.textDigits_fraction_length
  have hneg : decide (d.coef < 0) = false := decide_eq_false (not_lt.mpr hd)
  rw [parseMonetaryDecimal,if_neg (not_lt.mpr hsize),text,hneg,String.toList_ofList,
    monetaryDecimalPattern_joinDigits d.textDigits_wellFormed]
  simp only [DecimalParts.toDecimal,false_eq_true,if_false]
  rw [if_neg (by omega)]
  simp only
  rw [if_neg (by omega)]
  refine ⟨_,rfl,?_⟩
  rw [← abs_of_nonneg (value_nonneg_iff.mpr hd),← groupsValue_textDigits,groupsValue,Decimal.value,tenPow_eq,zero_sub,zpow_neg,
    zpow_natCast,div_eq_mul_inv]
  rfl

namespace Float64

def isFinite (x : Float64) : Bool := !x.isNaN && !x.isInf

theorem abs_decimal_lt (x : Float64) : |x.decimal.value| < 2^1025 := by
  cases x with
  | nan => simp [decimal,Decimal.value]
  | inf neg => simp [decimal,Decimal.value]
  | finite d h =>
    obtain ⟨q,hq,-⟩ := bind_eq_some_iff.mp h
    exact Binary64.lt_of_nearest hq

theorem lt_of_isFinite_ofRat {q : ℚ} (h : (ofRat q).isFinite = true) : |q| < 2^1025 := by
  unfold ofRat at h
  split at h
  · cases h
  · rename_i x hx
    exact Binary64.lt_of_nearest hx

@[simp] theorem orOne_orOne (x : Float64) : x.orOne.orOne = x.orOne := by
  unfold orOne
  split
  · have : (ofInt 1).isZero = false := by decide +kernel
    rw [this]
    rfl
  · rfl

end Float64

namespace Transaction

theorem divideOut_count (factor fuel n : ℕ) : (divideOut factor fuel n).1 ≤ fuel := by
  induction fuel generalizing n with
  | zero => exact le_rfl
  | succ fuel ih =>
    rw [divideOut]
    split
    · exact succ_le_succ (ih _)
    · exact zero_le _

theorem abs_bigInt_le (d : Decimal) : (d.bigInt.natAbs : ℚ) ≤ |d.value| := by
  rcases lt_or_ge d.exp 0 with h | h
  · have hcoef : d.bigInt = d.coef.tdiv (10^(-d.exp).toNat) := by simp [bigInt,rescale,not_le.mpr h]
    rw [abs_value_of_exp_neg d h,hcoef,natAbs_tdiv]
    refine cast_div_le.trans_eq ?_
    simp [natAbs_pow]
  · exact (abs_value_of_exp_nonneg d h).ge

theorem decimalPlaces_le (x : Float64) : decimalPlaces x.decimal.bigInt ≤ 2000 := by
  have hbound : x.decimal.bigInt.natAbs < 2^1025 := by
    exact_mod_cast (abs_bigInt_le x.decimal).trans_lt x.abs_decimal_lt
  have hlog : x.decimal.bigInt.natAbs.log2 ≤ 1025 := by
    by_cases hzero : x.decimal.bigInt.natAbs = 0
    · rw [hzero]
      decide
    · exact ((log2_lt hzero).mpr hbound).le
  have hdigits : (toDigits 10 x.decimal.bigInt.natAbs).length ≤ 400 :=
    (length_toDigits_le_iff (by decide) (by decide)).mpr (hbound.trans (by decide +kernel))
  have htwos := divideOut_count 2 (x.decimal.bigInt.natAbs.log2+1) x.decimal.bigInt.natAbs
  have hfives := divideOut_count 5 (x.decimal.bigInt.natAbs.log2+1)
    (divideOut 2 (x.decimal.bigInt.natAbs.log2+1) x.decimal.bigInt.natAbs).2
  simp only [decimalPlaces]
  split
  · omega
  · exact max_le (by omega) (by omega)

def materialise (t : Transaction) (amount : ℤ) : Transaction :=
  { t with precision := t.precision.orOne, preciseAmount := some amount }.convertPreciseToDecimal

def majorDecimal (amount : ℤ) (precision : Float64) : Decimal :=
  (Decimal.ofInt amount).divRound precision.decimal (decimalPlaces precision.decimal.bigInt)

def majorText (amount : ℤ) (precision : Float64) : String := (majorDecimal amount precision).text

def resolvedAmount (t : Transaction) : ℤ :=
  if 0 < t.preciseAmount.getD 0 then t.preciseAmount.getD 0
  else { t with precision := t.precision.orOne }.convertDecimalToPrecise

variable {t : Transaction} {a : ℤ} {x : Float64}

theorem applyPrecision_of_valid (h : t.validateMonetaryFields = .ok ()) :
    t.applyPrecision = (t.resolvedAmount,t.materialise t.resolvedAmount) := by
  rw [applyPrecision,h]
  simp only [applyPrecisionLogic,orOne_orOne,resolvedAmount]
  split
  · rename_i hpos
    obtain ⟨a,ha⟩ : ∃ a, t.preciseAmount = some a := by
      cases hp : t.preciseAmount with
      | none => simp [hp] at hpos
      | some a => exact ⟨a,rfl⟩
    simp [materialise,convertPreciseToDecimal,majorUnits,ha]
  · simp [materialise,convertPreciseToDecimal,majorUnits]

theorem applyPrecision_of_invalid {e : String} (h : t.validateMonetaryFields = .error e) :
    t.applyPrecision = (0,t) := by
  rw [applyPrecision,h]

@[simp] theorem materialise_materialise (t : Transaction) (a : ℤ) :
    (t.materialise a).materialise a = t.materialise a := by
  simp [materialise,convertPreciseToDecimal,majorUnits]

theorem resolvedAmount_materialise (h : 0 < a) :
    (t.materialise a).resolvedAmount = a := by
  simp [resolvedAmount,materialise,convertPreciseToDecimal,h]

theorem validateMonetaryFields_iff (t : Transaction) : t.validateMonetaryFields = .ok () ↔
    t.validateAmountField = .ok () ∧ t.validateAmountString = .ok () ∧ validatePrecision t.precision = .ok () ∧
      validateFinite t.rate "rate must be finite and positive (or zero for the default)" = .ok () ∧
      validateFinite t.overdraftLimit "overdraft limit must be finite and non-negative" = .ok () := by
  constructor
  · intro h
    obtain ⟨_,hamount,h⟩ := bind_ok h
    obtain ⟨_,hstring,h⟩ := bind_ok h
    obtain ⟨_,hprecision,h⟩ := bind_ok h
    obtain ⟨_,hrate,hlimit⟩ := bind_ok h
    exact ⟨hamount,hstring,hprecision,hrate,hlimit⟩
  · rintro ⟨hamount,hstring,hprecision,hrate,hlimit⟩
    rw [validateMonetaryFields,hamount,hstring,hprecision,hrate,hlimit]
    rfl

theorem validateAmountField_iff (t : Transaction) :
    t.validateAmountField = .ok () ↔ t.amount.negative = false ∧ t.amount.isFinite = true := by
  cases hn : t.amount.negative <;> cases hnan : t.amount.isNaN <;> cases hinf : t.amount.isInf <;>
    simp [validateAmountField,isFinite,hn,hnan,hinf]

theorem precision_nonneg (h : validatePrecision x = .ok ()) : 0 ≤ x.decimal.coef := by
  cases x with
  | nan => exact le_rfl
  | inf neg => exact le_rfl
  | finite d hd =>
    simp only [validatePrecision,ite_eq_right_iff,reduceCtorEq,imp_false,not_eq_true,
      or_eq_false_iff] at h
    exact not_lt.mp (of_decide_eq_false h.1.2)

theorem validatePrecision_orOne (h : validatePrecision x = .ok ()) :
    validatePrecision x.orOne = .ok () := by
  rw [orOne]
  split
  · decide +kernel
  · exact h

theorem orOne_toInt?_pos {p : ℤ} (h : validatePrecision x = .ok ()) (hp : x.orOne.toInt? = some p) :
    0 < p := by
  rw [Float64.orOne] at hp
  split at hp
  · have hone : (Float64.ofInt 1).toInt? = some 1 := by decide +kernel
    rw [hone] at hp
    cases hp
    decide
  rename_i hzero
  have hcoef := precision_nonneg h
  cases x with
  | nan => cases hp
  | inf neg => cases hp
  | finite d hd =>
    simp only [toInt?,ite_none_right_eq_some,some.injEq] at hp
    obtain ⟨-,rfl⟩ := hp
    have hne : d.coef ≠ 0 := fun he => hzero (decide_eq_true he)
    have hpos : 0 < d.coef := lt_of_le_of_ne hcoef (Ne.symm hne)
    exact Rat.num_pos.mpr (mul_pos (cast_pos.mpr hpos) (tenPow_pos _))

/-- Precision, rate and overdraft limit pass their checks. -/
structure ValidTerms (t : Transaction) : Prop where
  precision : validatePrecision t.precision = .ok ()
  rate : validateFinite t.rate "rate must be finite and positive (or zero for the default)" = .ok ()
  limit : validateFinite t.overdraftLimit "overdraft limit must be finite and non-negative" = .ok ()

theorem validTerms_of_valid (h : t.validateMonetaryFields = .ok ()) : t.ValidTerms := by
  obtain ⟨-,-,hprecision,hrate,hlimit⟩ := (validateMonetaryFields_iff t).mp h
  exact ⟨hprecision,hrate,hlimit⟩

/-- The amount has been converted: text and double are those of the minor-unit amount. -/
structure Materialised (t : Transaction) (a : ℤ) : Prop where
  terms : t.ValidTerms
  scale : t.precision.orOne = t.precision
  preciseAmount : t.preciseAmount = some a
  text : t.amountString = majorText a t.precision
  amount : t.amount = ofRat (majorDecimal a t.precision).value

theorem materialised_materialise (h : t.ValidTerms) (a : ℤ) : (t.materialise a).Materialised a :=
  ⟨⟨validatePrecision_orOne h.precision,h.rate,h.limit⟩,orOne_orOne _,rfl,rfl,rfl⟩

theorem Materialised.valid_iff (h : t.Materialised a) (ha : 0 ≤ a) :
    t.validateMonetaryFields = .ok () ↔ t.amount.isFinite = true := by
  have hcoef : 0 ≤ (majorDecimal a t.precision).coef := divRound_coef_nonneg ha (precision_nonneg h.terms.precision) _
  have hnonneg : 0 ≤ (majorDecimal a t.precision).value := mul_nonneg (cast_nonneg hcoef) (tenPow_pos _).le
  have hsign : t.amount.negative = false := h.amount ▸ ofRat_not_negative hnonneg
  constructor
  · intro hvalid
    exact ((validateAmountField_iff _).mp ((validateMonetaryFields_iff _).mp hvalid).1).2
  · intro hfinite
    have hlt : |(majorDecimal a t.precision).value| < 2^1025 := lt_of_isFinite_ofRat (h.amount ▸ hfinite)
    have hplaces := decimalPlaces_le t.precision
    have hlimit310 : (2 : ℚ)^1025 < 10^310 := by
      have : 2^1025 < 10^310 := by decide +kernel
      exact_mod_cast this
    have hexp : -(majorDecimal a t.precision).exp ≤ 2000 := by
      rw [majorDecimal,divRound_exp]
      omega
    obtain ⟨v,hv,hvalue⟩ := parseMonetaryDecimal_text hcoef (utf8ByteSize_text hcoef (hlt.trans hlimit310) hexp) hexp
    have hv0 : 0 ≤ v.coef := value_nonneg_iff.mp (hvalue ▸ hnonneg)
    refine (validateMonetaryFields_iff _).mpr ⟨(validateAmountField_iff _).mpr ⟨hsign,hfinite⟩,?_,h.terms.precision,
      h.terms.rate,h.terms.limit⟩
    rw [validateAmountString,h.text,majorText,hv]
    split
    · rfl
    · simp [not_lt.mpr hv0]

theorem precision_pos {x : Float64} (h : validatePrecision x = .ok ()) (hs : x.orOne = x) : 0 < x.decimal.coef := by
  cases x with
  | nan => exact absurd h (by decide)
  | inf neg => exact absurd h (by cases neg <;> decide)
  | finite d hd =>
    refine lt_of_le_of_ne (precision_nonneg h) fun hzero => ?_
    have hz : (finite d hd).isZero = true := decide_eq_true hzero.symm
    rw [orOne,if_pos hz] at hs
    rw [← hs] at hz
    exact absurd hz (by decide +kernel)

theorem majorDecimal_zero {x : Float64} (h : 0 < x.decimal.coef) : (majorDecimal 0 x).coef = 0 := by
  have hparts : ∀ places : ℤ, (Decimal.quotientParts (Decimal.ofInt 0) x.decimal places).1 = 0 ∧
      (Decimal.quotientParts (Decimal.ofInt 0) x.decimal places).2 ≠ 0 := by
    intro places
    simp only [Decimal.quotientParts,Decimal.ofInt,zero_mul]
    rw [apply_ite Prod.fst]
    refine ⟨ite_self _,?_⟩
    split
    · positivity
    · exact h.ne'
  obtain ⟨hnum,hden⟩ := hparts (decimalPlaces x.decimal.bigInt)
  rw [majorDecimal,Decimal.divRound]
  simp only [hnum,Int.zero_tdiv,Int.zero_tmod,abs_zero,mul_zero]
  rw [if_pos (abs_pos.mpr hden)]

theorem parseAmount_zero (x : Float64) : ∃ e, parseAmount "0" x = .error e := by
  have hparse : parseMonetaryDecimal "0" = .ok ⟨0,0⟩ := by decide
  rw [parseAmount]
  cases validatePrecision x with
  | error e => exact ⟨e,rfl⟩
  | ok => exact ⟨_,rfl⟩

theorem convertDecimalToPrecise_zero (h : t.decimalAmount = "0") : t.convertDecimalToPrecise = 0 := by
  obtain ⟨e,he⟩ := parseAmount_zero t.precision
  rw [convertDecimalToPrecise,h,he]

theorem Materialised.resolvedAmount_eq {a : ℤ} (h : t.Materialised a) (ha : 0 ≤ a) : t.resolvedAmount = a := by
  rw [resolvedAmount,h.preciseAmount,getD_some]
  rcases ha.lt_or_eq with hpos | rfl
  · rw [if_pos hpos]
  refine convertDecimalToPrecise_zero ?_
  rw [h.text,majorText,text_of_coef_zero (majorDecimal_zero (precision_pos h.terms.precision h.scale))]
  rfl

end Transaction
end LedgerForge
