import LedgerForge.Numeric.Decimal

/-! # Rational number text

The text accepted by the standard library's arbitrary-precision rationals: a fraction of integers,
or a floating-point number with an optional sign, base prefix, digit separators, radix point and
exponent. The scanners follow the library's one-character look-ahead loops and return the unread
rest of the input.
-/

namespace LedgerForge.RatText

open List Nat

/-- The last character seen, as far as separators care. -/
inductive Previous
  | separator
  | digit
  | other
deriving DecidableEq

/-- State of the digit loop: the number so far, the digits counted, the position of the point. -/
structure DigitScan where
  value : ℕ
  count : ℕ
  point : Option ℕ
  previous : Previous
  badSeparator : Bool
deriving DecidableEq

/-- Value of a digit in bases up to 36; any other character is larger than every base. -/
def digitValue (c : Char) : ℕ :=
  if '0' ≤ c ∧ c ≤ '9' then c.toNat- '0'.toNat
  else if 'a' ≤ c ∧ c ≤ 'z' then c.toNat- 'a'.toNat+10
  else if 'A' ≤ c ∧ c ≤ 'Z' then c.toNat- 'A'.toNat+10
  else 63

/-- Consume digits of `base`, separators and, while `fracOk`, one radix point. -/
def scanDigits (base : ℕ) (fracOk : Bool) (s : DigitScan) : List Char → DigitScan × List Char
  | [] => (s,[])
  | c :: cs =>
    if c = '.' ∧ fracOk then
      scanDigits base false { s with badSeparator := s.badSeparator || s.previous == .separator,
                                     previous := .other, point := some s.count } cs
    else if c = '_' then
      scanDigits base fracOk { s with badSeparator := s.badSeparator || s.previous != .digit,
                                      previous := .separator } cs
    else if digitValue c < base then
      scanDigits base fracOk { s with previous := .digit, count := s.count+1,
                                      value := base*s.value+digitValue c } cs
    else (s,c :: cs)

/-- An unsigned mantissa: its digits as a number, its base, and how many digits follow the point. -/
structure Mantissa where
  value : ℕ
  base : ℕ
  fraction : ℕ
deriving DecidableEq

/-- What follows a leading zero: the base it selects and the characters still to scan. -/
def scanPrefix (fracOk : Bool) : List Char → ℕ × Bool × List Char
  | [] => (10,true,[])
  | c :: cs =>
    if c = 'b' ∨ c = 'B' then (2,false,cs)
    else if c = 'o' ∨ c = 'O' then (8,false,cs)
    else if c = 'x' ∨ c = 'X' then (16,false,cs)
    else (if fracOk then 10 else 8,true,c :: cs)

/-- Finish a digit loop: separators must sit between digits and there must be a digit. A lone
octal zero prefix still counts as the number zero. -/
def finishMantissa (base : ℕ) (octalZero : Bool) (r : DigitScan × List Char) :
    Option (Mantissa × List Char) :=
  if r.1.badSeparator ∨ r.1.previous = .separator then none
  else if r.1.count = 0 then
    if octalZero then some (⟨0,10,0⟩,r.2) else none
  else some (⟨r.1.value,base,(r.1.point.map (r.1.count-·)).getD 0⟩,r.2)

def scanMantissa (fracOk : Bool) : List Char → Option (Mantissa × List Char)
  | '0' :: cs =>
    let (base,zeroCounts,rest) := scanPrefix fracOk cs
    let octal := zeroCounts && base == 8
    let start : DigitScan :=
      ⟨0,if zeroCounts && !octal then 1 else 0,none,.digit,false⟩
    finishMantissa base octal (scanDigits base fracOk start rest)
  | cs => finishMantissa 10 false (scanDigits 10 fracOk ⟨0,0,none,.other,false⟩ cs)

def scanSign : List Char → Bool × List Char
  | '-' :: cs => (true,cs)
  | '+' :: cs => (false,cs)
  | cs => (false,cs)

def scanExponent (cs : List Char) : Option (ℤ × ℕ × List Char) :=
  match cs with
  | [] => some (0,10,[])
  | c :: rest =>
    if c = 'e' ∨ c = 'E' ∨ c = 'p' ∨ c = 'P' then
      let base := if c = 'e' ∨ c = 'E' then 10 else 2
      let (neg,digits) := scanSign rest
      let (s,left) := scanDigits 10 false ⟨0,0,none,.other,false⟩ digits
      let e : ℤ := if neg then -(s.value : ℤ) else s.value
      if s.count = 0 ∨ s.badSeparator ∨ s.previous = .separator then none
      else if e < -2^63 ∨ 2^63 ≤ e then none
      else some (e,base,left)
    else some (0,10,cs)

def digitBits (base : ℕ) : ℤ := if base = 16 then 4 else if base = 8 then 3 else 1

def exponents (m : Mantissa) (e : ℤ) (ebase : ℕ) : ℤ × ℤ :=
  let f : ℤ := -(m.fraction : ℤ)
  let five := (if m.base = 10 then f else 0)+(if ebase = 10 then e else 0)
  let two := (if m.base = 10 then f else f*digitBits m.base)+e
  (five,two)

def ratPow (b : ℕ) : ℤ → ℚ
  | .ofNat n => ((b^n : ℕ) : ℚ)
  | .negSucc n => mkRat 1 (b^(n+1))

theorem ratPow_eq (b : ℕ) (e : ℤ) : ratPow b e = (b : ℚ)^e := by
  cases e with
  | ofNat n => simp [ratPow]
  | negSucc n => simp [ratPow,Rat.mkRat_eq_div,zpow_negSucc]

/-- A mantissa scaled by its radix point and exponent; overly large exponents are refused. -/
def scaledValue (neg : Bool) (m : Mantissa) (e : ℤ) (ebase : ℕ) : Option ℚ :=
  if m.value = 0 then some 0
  else
    let (five,two) := exponents m e ebase
    if 10^6 < |five| ∨ 10^7 < |two| then none
    else
      let magnitude := (m.value : ℚ)*ratPow 5 five*ratPow 2 two
      some (if neg then -magnitude else magnitude)

def floatValue (cs : List Char) : Option ℚ := do
  let (m,rest) ← scanMantissa true (scanSign cs).2
  let (e,ebase,left) ← scanExponent rest
  if left ≠ [] then none else scaledValue (scanSign cs).1 m e ebase

def intValue (cs : List Char) : Option ℤ := do
  let (m,rest) ← scanMantissa false (scanSign cs).2
  if rest ≠ [] then none else some (if (scanSign cs).1 then -(m.value : ℤ) else m.value)

/-- Numeric text as a rational: a fraction when it has a slash, otherwise a floating-point number. -/
def setString (s : String) : Option ℚ :=
  let cs := s.toList
  if '/' ∈ cs then do
    let (before,after) := cs.span (· ≠ '/')
    let num ← intValue before
    let (den,rest) ← scanMantissa false after.tail
    if rest ≠ [] ∨ den.value = 0 then none else some (num/den.value)
  else floatValue cs

section Positional

open Decimal

theorem isDigit_cases {c : Char} (h : c.isDigit = true) :
    c ≠ '.' ∧ c ≠ '_' ∧ c ≠ '/' ∧ digitValue c = c.toNat- '0'.toNat ∧ digitValue c < 10 := by
  obtain ⟨h0,h9⟩ := Char.isDigit_iff_toNat.mp h
  have hrange : '0' ≤ c ∧ c ≤ '9' := by
    exact ⟨UInt32.le_iff_toNat_le.mpr h0,UInt32.le_iff_toNat_le.mpr h9⟩
  have hvalue : digitValue c = c.toNat- '0'.toNat := if_pos hrange
  refine ⟨?_,?_,?_,hvalue,?_⟩
  · rintro rfl
    revert h
    decide
  · rintro rfl
    revert h
    decide
  · rintro rfl
    revert h
    decide
  · have : '0'.toNat = 48 := rfl
    have : '9'.toNat = 57 := rfl
    omega

variable {ds : List Char} {digits : List Char × List Char}

theorem scanDigits_digits (h : ∀ c ∈ ds, c.isDigit = true) (fracOk : Bool) (s : DigitScan)
    (rest : List Char) :
    scanDigits 10 fracOk s (ds ++ rest) = scanDigits 10 fracOk
      { s with value := ofDigitChars 10 ds s.value, count := s.count+ds.length,
               previous := if ds = [] then s.previous else .digit } rest := by
  induction ds generalizing s with
  | nil => rfl
  | cons c cs ih =>
    obtain ⟨hpoint,hsep,-,hvalue,hlt⟩ := isDigit_cases (h c mem_cons_self)
    rw [cons_append,scanDigits,if_neg (fun hc => hpoint hc.1),if_neg hsep,if_pos hlt,
      ih (fun c' hc' => h c' (mem_cons_of_mem _ hc')),ofDigitChars_cons,hvalue]
    congr 1
    simp only [DigitScan.mk.injEq,true_and,and_true,length_cons]
    exact ⟨by omega,by simp⟩

theorem scanDigits_fraction (h : ∀ c ∈ ds, c.isDigit = true) (s : DigitScan)
    (hs : s.previous = .digit) (hp : s.point = none) (hb : s.badSeparator = false) :
    let r := scanDigits 10 true s (if ds = [] then [] else '.' :: ds)
    r.2 = [] ∧ r.1.value = ofDigitChars 10 ds s.value ∧ r.1.count = s.count+ds.length ∧
      r.1.badSeparator = false ∧ r.1.previous = .digit ∧
      (r.1.point.map (r.1.count-·)).getD 0 = ds.length := by
  obtain ⟨value,count,point,previous,bad⟩ := s
  obtain rfl : previous = .digit := hs
  obtain rfl : point = none := hp
  obtain rfl : bad = false := hb
  by_cases hds : ds = []
  · subst hds
    simp [scanDigits,ofDigitChars_nil]
  have hscan := scanDigits_digits h false ⟨value,count,some count,.other,false⟩ []
  rw [append_nil] at hscan
  have hfirst : scanDigits 10 true ⟨value,count,none,.digit,false⟩ ('.' :: ds) =
      scanDigits 10 false ⟨value,count,some count,.other,false⟩ ds := by
    rfl
  simp [hds,hfirst,hscan,scanDigits]

theorem finishMantissa_fraction (h : ∀ c ∈ ds, c.isDigit = true) (s : DigitScan)
    (hs : s.previous = .digit) (hp : s.point = none) (hb : s.badSeparator = false) (hc : 0 < s.count) :
    finishMantissa 10 false (scanDigits 10 true s (if ds = [] then [] else '.' :: ds)) =
      some (⟨ofDigitChars 10 ds s.value,10,ds.length⟩,[]) := by
  obtain ⟨hrest,hvalue,hcount,hbad,hprev,hpoint⟩ := scanDigits_fraction h s hs hp hb
  rw [finishMantissa,if_neg (by simp [hbad,hprev]),if_neg (by omega),hvalue,hpoint,hrest]

theorem scanPrefix_digits {fs : List Char} (h : ∀ c ∈ ds, c.isDigit = true) :
    scanPrefix true (ds ++ (if fs = [] then [] else '.' :: fs)) =
      (10,true,ds ++ (if fs = [] then [] else '.' :: fs)) := by
  cases ds with
  | nil =>
    split
    all_goals rfl
  | cons c cs =>
    have hc := h c mem_cons_self
    have hne : ∀ x : Char, x.isDigit = false → c ≠ x := by
      rintro x hx rfl
      rw [hc] at hx
      cases hx
    simp [scanPrefix,hne]

theorem scanMantissa_groups (h : WellFormedGroups digits) :
    scanMantissa true (digits.1 ++ (if digits.2 = [] then [] else '.' :: digits.2)) =
      some (⟨ofDigitChars 10 (digits.1++digits.2) 0,10,digits.2.length⟩,[]) := by
  obtain ⟨whole,fraction⟩ := digits
  obtain ⟨hw,hf,hne⟩ := h
  rw [ofDigitChars_append]
  obtain ⟨c,cs,rfl⟩ := exists_cons_of_ne_nil hne
  have hcs : ∀ c' ∈ cs, c'.isDigit = true := fun c' hc' => hw c' (mem_cons_of_mem _ hc')
  by_cases hc : c = '0'
  · subst hc
    rw [cons_append,scanMantissa,scanPrefix_digits hcs]
    simp only [Bool.true_and,Nat.reduceBEq,Bool.not_false,if_true]
    rw [scanDigits_digits hcs,finishMantissa_fraction hf]
    · rfl
    · simp
    · rfl
    · rfl
    · simp only
      omega
  · rw [cons_append,scanMantissa.eq_2 _ _ (fun _ he => hc (List.cons.inj he).1),← cons_append,
      scanDigits_digits hw,finishMantissa_fraction hf]
    · simp
    · rfl
    · rfl
    · simp

theorem scanSign_joinDigits (neg : Bool) (h : WellFormedGroups digits) :
    scanSign (joinDigits neg digits) =
      (neg,digits.1 ++ (if digits.2 = [] then [] else '.' :: digits.2)) := by
  cases neg with
  | true => simp [joinDigits,scanSign]
  | false =>
    obtain ⟨c,cs,hcs⟩ := exists_cons_of_ne_nil h.nonempty
    have hc := h.whole c (hcs ▸ mem_cons_self)
    have hminus : c ≠ '-' := by
      rintro rfl
      revert hc
      decide
    have hplus : c ≠ '+' := by
      rintro rfl
      revert hc
      decide
    simp [joinDigits,hcs,scanSign,hminus,hplus]

theorem slash_notMem_joinDigits (neg : Bool) (h : WellFormedGroups digits) :
    '/' ∉ joinDigits neg digits := by
  have hwhole : '/' ∉ digits.1 := fun hm => (isDigit_cases (h.whole _ hm)).2.2.1 rfl
  have hfraction : '/' ∉ digits.2 := fun hm => (isDigit_cases (h.fraction _ hm)).2.2.1 rfl
  rw [joinDigits]
  split <;> split <;> simp [hwhole,hfraction]

theorem scaledValue_decimal (neg : Bool) (n k : ℕ) (hk : k ≤ 10^6) :
    scaledValue neg ⟨n,10,k⟩ 0 10 = some (if neg then -((n : ℚ)/10^k) else (n : ℚ)/10^k) := by
  rw [scaledValue]
  split
  · rename_i hn
    obtain rfl : n = 0 := hn
    simp
  have hpow : n*ratPow 5 (-k)*ratPow 2 (-k) = n/10^k := by
    rw [ratPow_eq,ratPow_eq,zpow_neg,zpow_neg,zpow_natCast,zpow_natCast,mul_assoc,← mul_inv,← mul_pow,
      div_eq_mul_inv]
    norm_num
  have hsmall : ¬ (10^6 < |(-k : ℤ)| ∨ 10^7 < |(-k : ℤ)|) := by
    rw [abs_neg,abs_cast]
    omega
  simp only [exponents,if_true,add_zero,if_neg hsmall,hpow]

theorem setString_text (d : Decimal) (h : d.textDigits.2.length ≤ 10^6) :
    setString d.text = some d.value := by
  have hw := d.textDigits_wellFormed
  have hchars : d.text.toList = joinDigits (d.coef < 0) d.textDigits := String.toList_ofList
  rw [setString,hchars,if_neg (slash_notMem_joinDigits _ hw),floatValue,scanSign_joinDigits _ hw,
    scanMantissa_groups hw]
  simp only [Option.bind_eq_bind,Option.bind_some,scanExponent,ne_eq,not_true_eq_false,if_false]
  rw [scaledValue_decimal _ _ _ h]
  have hgroups := d.groupsValue_textDigits
  rw [groupsValue] at hgroups
  rw [hgroups]
  by_cases hneg : d.coef < 0
  · have hv : d.value < 0 := mul_neg_of_neg_of_pos (Int.cast_lt_zero.mpr hneg) (tenPow_pos _)
    simp [hneg,abs_of_neg hv]
  · have hv : 0 ≤ d.value := mul_nonneg (Int.cast_nonneg (not_lt.mp hneg)) (tenPow_pos _).le
    simp [hneg,abs_of_nonneg hv]

end Positional

end LedgerForge.RatText
