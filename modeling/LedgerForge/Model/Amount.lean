import LedgerForge.Model.Transaction

/-! # Monetary fields and precision

Validation of the monetary fields of a transaction and the conversion between a major-unit decimal amount and an
integer number of minor units.
-/

namespace LedgerForge

def validatePrecision (precision : Float64) : Except String Unit :=
  if precision.isNaN || precision.isInf || precision.negative || precision.toInt?.isNone then
    .error "precision must be a finite positive integer (or zero for the default)"
  else .ok ()

/-- Sign, digits before and after the point and exponent of decimal text in the accepted format. -/
structure DecimalParts where
  negative : Bool
  whole : List Char
  fraction : List Char
  exponent : Option (Bool × List Char)
deriving DecidableEq

def splitSign : List Char → Bool × List Char
  | '-' :: cs => (true,cs)
  | '+' :: cs => (false,cs)
  | cs => (false,cs)

def splitExponent : List Char → Option (Option (Bool × List Char))
  | [] => some none
  | c :: cs =>
    if c = 'e' ∨ c = 'E' then
      let (neg,digits) := splitSign cs
      if digits ≠ [] ∧ digits.all Char.isDigit then some (some (neg,digits)) else none
    else none

/-- The accepted format: digits with an optional point, at least one digit, optional exponent. -/
def monetaryDecimalPattern (text : List Char) : Option DecimalParts :=
  let (neg,unsigned) := splitSign text
  let (whole,rest) := unsigned.span Char.isDigit
  match rest with
  | '.' :: afterPoint =>
    let (fraction,tail) := afterPoint.span Char.isDigit
    if whole = [] ∧ fraction = [] then none
    else (splitExponent tail).map fun e => ⟨neg,whole,fraction,e⟩
  | tail => if whole = [] then none else (splitExponent tail).map fun e => ⟨neg,whole,[],e⟩

/-- The decimal denoted by text in the accepted format; the exponent must fit 32 bits. -/
def DecimalParts.toDecimal (p : DecimalParts) : Option Decimal :=
  let magnitude : ℤ := Nat.ofDigitChars 10 (p.whole++p.fraction) 0
  let written : ℤ := match p.exponent with
    | none => 0
    | some (neg,digits) => if neg then -(Nat.ofDigitChars 10 digits 0 : ℤ) else Nat.ofDigitChars 10 digits 0
  let exp := written-p.fraction.length
  if written < -2^31 ∨ 2^31 ≤ written ∨ exp < -2^31 ∨ 2^31 ≤ exp then none
  else some ⟨if p.negative then -magnitude else magnitude,exp⟩

def parseMonetaryDecimal (text : String) : Except String Decimal :=
  if 4096 < text.utf8ByteSize then .error "decimal input exceeds 4096 characters"
  else match monetaryDecimalPattern text.toList with
    | none => .error "invalid decimal format"
    | some parts => match parts.toDecimal with
      | none => .error ("can't convert " ++ text ++ " to decimal: fractional part too long")
      | some d =>
        if d.exp < -4096 ∨ 4096 < d.exp then .error "decimal exponent exceeds supported range" else .ok d

def Float64.orOne (precision : Float64) : Float64 := if precision.isZero then Float64.ofInt 1 else precision

def parseAmount (amount : String) (precision : Float64) : Except String ℤ := do
  validatePrecision precision
  match parseMonetaryDecimal amount with
  | .error _ => .error "invalid decimal amount"
  | .ok value =>
    if value.coef ≤ 0 then .error "transaction amount must be positive"
    else
      let minor := ((value.mul precision.orOne.decimal).round 0).bigInt
      if minor ≤ 0 then .error "transaction amount rounds to zero minor units" else .ok minor

namespace Transaction

def validateFinite (x : Float64) (message : String) : Except String Unit :=
  if x.isNaN || x.isInf || x.negative then .error message else .ok ()

def validateAmountField (t : Transaction) : Except String Unit :=
  if t.amount.negative then .error "transaction amount must be positive"
  else if t.amount.isNaN || t.amount.isInf then .error "transaction amount must be finite and positive"
  else .ok ()

def validateAmountString (t : Transaction) : Except String Unit :=
  if t.amountString = "" then .ok ()
  else match parseMonetaryDecimal t.amountString with
    | .error _ => .error "transaction decimal amount must be finite and non-negative"
    | .ok value =>
      if value.coef < 0 then .error "transaction decimal amount must be finite and non-negative" else .ok ()

def validateMonetaryFields (t : Transaction) : Except String Unit := do
  t.validateAmountField
  t.validateAmountString
  validatePrecision t.precision
  validateFinite t.rate "rate must be finite and positive (or zero for the default)"
  validateFinite t.overdraftLimit "overdraft limit must be finite and non-negative"

def decimalAmount (t : Transaction) : String :=
  if t.amountString ≠ "" then t.amountString else t.amount.decimal.text

/-- Divide a factor out as often as it goes, counting the divisions. -/
def divideOut (factor : ℕ) : ℕ → ℕ → ℕ × ℕ
  | 0, n => (0,n)
  | fuel+1, n =>
    if n % factor = 0 then
      let (count,rest) := divideOut factor fuel (n/factor)
      (count+1,rest)
    else (0,n)

/-- Decimal places that make division by the precision exact, or enough for a repeating expansion. -/
def decimalPlaces (precision : ℤ) : ℕ :=
  let n := precision.natAbs
  let (twos,odd) := divideOut 2 (n.log2+1) n
  let (fives,rest) := divideOut 5 (n.log2+1) odd
  if rest ≠ 1 then (Nat.toDigits 10 n).length+16 else max twos fives

def majorUnits (t : Transaction) : Decimal :=
  (Decimal.ofInt (t.preciseAmount.getD 0)).divRound t.precision.decimal
    (decimalPlaces t.precision.decimal.bigInt)

def convertPreciseToDecimal (t : Transaction) : Transaction :=
  { t with amountString := t.majorUnits.text, amount := Float64.ofRat t.majorUnits.value }

def convertDecimalToPrecise (t : Transaction) : ℤ :=
  match parseAmount t.decimalAmount t.precision with
  | .error _ => 0
  | .ok amount => amount

/-- A positive precise amount is kept; otherwise it is computed from the decimal amount. -/
def applyPrecisionLogic (t : Transaction) : Transaction :=
  let t := { t with precision := t.precision.orOne }
  if 0 < t.preciseAmount.getD 0 then t.convertPreciseToDecimal
  else { t with preciseAmount := some t.convertDecimalToPrecise }.convertPreciseToDecimal

/-- The resolved amount and the updated transaction; invalid fields give zero and no update. -/
def applyPrecision (t : Transaction) : ℤ × Transaction :=
  match t.validateMonetaryFields with
  | .error _ => (0,t)
  | .ok _ =>
    let t' := { t with precision := t.precision.orOne }.applyPrecisionLogic
    (t'.preciseAmount.getD 0,t')

def validate (t : Transaction) : Except String Unit := do
  t.validateMonetaryFields
  match t.preciseAmount with
  | some amount => if amount ≤ 0 then throw "transaction precise amount must be positive"
  | none =>
    let _ ← parseAmount t.decimalAmount t.precision

def validateAmount (t : Transaction) : Except String Unit := t.validate

def applyPrecisionChecked (t : Transaction) : Except String (ℤ × Transaction) := do
  t.validate
  return t.applyPrecision

end Transaction
end LedgerForge
