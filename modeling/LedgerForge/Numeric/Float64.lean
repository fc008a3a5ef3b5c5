import LedgerForge.Numeric.Decimal
import Mathlib.Data.Int.Log

/-! # Binary64 floating point by shortest decimals

A finite double is represented by the shortest decimal that rounds to it. The finite case carries the proof that its
decimal is that shortest form, so two finite values are equal exactly when the doubles are. Magnitudes that round to
`2 ^ 1024` or more become infinite. Arithmetic rounds the exact result to the nearest double; zero has no sign here,
which no comparison can tell.
-/

namespace LedgerForge

open Option Decimal

namespace Binary64

def twoPow : ℤ → ℚ
  | .ofNat n => ((2 ^ n : ℕ) : ℚ)
  | .negSucc n => mkRat 1 (2 ^ (n+1))

def ulpExponent (q : ℚ) : ℤ := max (Int.log 2 |q|-52) (-1074)

def roundHalfEven (q : ℚ) : ℤ :=
  let f := ⌊q⌋
  if q-f < 1/2 then f else if 1/2 < q-f then f+1 else if f % 2 = 0 then f else f+1

def nearest (q : ℚ) : Option ℚ :=
  let ulp := twoPow (ulpExponent q)
  let r := roundHalfEven (q/ulp)*ulp
  if |r| < twoPow 1024 then some r else none

def digitCandidates (q : ℚ) (n : ℕ) : List Decimal :=
  let e := Int.log 10 |q|-(n : ℤ)+1
  let scaled := q/tenPow e
  let f := ⌊scaled⌋
  let c := if scaled-f ≤ 1/2 then [f,f+1] else [f+1,f]
  c.map fun m => if m % 10 = 0 ∧ m ≠ 0 then ⟨m/10,e+1⟩ else ⟨m,e⟩

def candidates (q : ℚ) : List Decimal :=
  if q = 0 then [⟨0,0⟩] else (List.range 17).flatMap fun n => digitCandidates q (n+1)

def shortest (q : ℚ) : Option Decimal := (candidates q).find? fun d => nearest d.value = some q

variable {q x : ℚ}

theorem nearest_of_shortest {d : Decimal} (h : shortest q = some d) : nearest d.value = some q := by
  simpa using List.find?_some h

theorem twoPow_pos (e : ℤ) : 0 < twoPow e := by
  cases e with
  | ofNat n => simp [twoPow]
  | negSucc n => simp [twoPow,Rat.mkRat_eq_div]

theorem roundHalfEven_nonneg (h : 0 ≤ q) : 0 ≤ roundHalfEven q := by
  have hf : 0 ≤ ⌊q⌋ := Int.floor_nonneg.mpr h
  simp only [roundHalfEven]
  split_ifs <;> omega

theorem nearest_nonneg (h : 0 ≤ q) (hx : nearest q = some x) : 0 ≤ x := by
  simp only [nearest,ite_none_right_eq_some,some.injEq] at hx
  obtain ⟨-,rfl⟩ := hx
  have hulp := twoPow_pos (ulpExponent q)
  exact mul_nonneg (Int.cast_nonneg (roundHalfEven_nonneg (div_nonneg h hulp.le))) hulp.le

theorem twoPow_eq (e : ℤ) : twoPow e = (2 : ℚ)^e := by
  cases e with
  | ofNat n => simp [twoPow]
  | negSucc n => simp [twoPow,Rat.mkRat_eq_div,zpow_negSucc]

theorem roundHalfEven_near (q : ℚ) : |q| ≤ |(roundHalfEven q : ℚ)|+1 := by
  have hle := Int.floor_le q
  have hlt := Int.lt_floor_add_one q
  have hnear : |q-(roundHalfEven q)| ≤ 1 := by
    rw [abs_le]
    simp only [roundHalfEven]
    split_ifs <;> push_cast <;> constructor <;> linarith
  have := abs_sub_abs_le_abs_sub q (roundHalfEven q)
  linarith

theorem lt_of_nearest (h : nearest q = some x) : |q| < 2^1025 := by
  by_contra hge
  rw [not_lt] at hge
  have hpos : 0 < |q| := lt_of_lt_of_le (by positivity) hge
  have hlog := Int.zpow_log_le_self (b := 2) (by norm_num) hpos
  have hlarge : 1025 ≤ Int.log 2 |q| :=
    (Int.zpow_le_iff_le_log (by norm_num) hpos).mp (by exact_mod_cast hge)
  have hexp : ulpExponent q = Int.log 2 |q|-52 := by
    rw [ulpExponent]
    omega
  simp only [nearest,hexp,ite_none_right_eq_some] at h
  obtain ⟨hlt,-⟩ := h
  have hulp := twoPow_pos (Int.log 2 |q|-52)
  set u := twoPow (Int.log 2 |q|-52) with hu
  have hu52 : u*2^52 ≤ |q| := by
    have hsplit : u*2^52 = 2^Int.log 2 |q| := by
      rw [hu,twoPow_eq,← zpow_natCast,← zpow_add₀ (by norm_num)]
      norm_num
    rw [hsplit]
    exact_mod_cast hlog
  have hnear := roundHalfEven_near (q/u)
  rw [abs_div,abs_of_pos hulp,div_le_iff₀ hulp] at hnear
  rw [abs_mul,abs_of_pos hulp,twoPow_eq] at hlt
  rw [show 1024 = ((1024 : ℕ) : ℤ) from rfl,zpow_natCast] at hlt
  rw [pow_succ] at hge
  generalize (2 : ℚ)^1024 = limit at hlt hge
  linarith

theorem digitCandidates_nonneg (h : 0 ≤ q) (n : ℕ) : ∀ d ∈ digitCandidates q n, 0 ≤ d.coef := by
  intro d hd
  obtain ⟨m,hm,rfl⟩ := List.mem_map.mp hd
  have hf : 0 ≤ ⌊q/tenPow (Int.log 10 |q|-n+1)⌋ :=
    Int.floor_nonneg.mpr (div_nonneg h (tenPow_pos _).le)
  have hm0 : 0 ≤ m := by
    split at hm <;> simp only [List.mem_cons,List.not_mem_nil,or_false] at hm <;> omega
  split
  · exact Int.ediv_nonneg hm0 (by decide)
  · exact hm0

theorem shortest_nonneg {d : Decimal} (h : 0 ≤ q) (hd : shortest q = some d) : 0 ≤ d.coef := by
  have hmem := List.mem_of_find?_eq_some hd
  rw [candidates] at hmem
  split at hmem
  · simp [List.mem_singleton.mp hmem]
  · obtain ⟨n,-,hn⟩ := List.mem_flatMap.mp hmem
    exact digitCandidates_nonneg h _ d hn

theorem roundHalfEven_intCast (n : ℤ) : roundHalfEven n = n := by
  simp [roundHalfEven]

theorem nearest_intCast {n : ℤ} (h : nearest n = some x) : ∃ m : ℤ, x = m := by
  simp only [nearest,ite_none_right_eq_some,some.injEq] at h
  obtain ⟨-,rfl⟩ := h
  cases hulp : ulpExponent n with
  | ofNat e => exact ⟨_,by rw [twoPow,← Int.cast_natCast,← Int.cast_mul]⟩
  | negSucc e =>
    have hpow : twoPow (.negSucc e) = 1/((2^(e+1))) := by rw [twoPow,Rat.mkRat_eq_div]; simp
    have hscaled : n/twoPow (.negSucc e) = ((n*(2^(e+1)) : ℤ)) := by
      rw [hpow]
      push_cast
      field_simp
    refine ⟨n,?_⟩
    rw [hscaled,roundHalfEven_intCast,← hscaled,div_mul_cancel₀]
    rw [hpow]
    positivity

end Binary64

/-- A double: not a number, an infinity, or a finite value as its shortest decimal. -/
inductive Float64
  | nan
  | inf (negative : Bool)
  | finite (d : Decimal) (canonical : (Binary64.nearest d.value).bind Binary64.shortest = some d)
deriving DecidableEq

namespace Float64

open Binary64

def ofRat (q : ℚ) : Float64 :=
  match nearest q with
  | none => .inf (q < 0)
  | some x =>
    match h : shortest x with
    | none => .nan
    | some d => .finite d (bind_eq_some_iff.mpr ⟨x,nearest_of_shortest h,h⟩)

def ofInt (n : ℤ) : Float64 := ofRat n

theorem ofRat_value (d : Decimal) (h : (nearest d.value).bind shortest = some d) :
    ofRat d.value = .finite d h := by
  obtain ⟨x,hx,hs⟩ := bind_eq_some_iff.mp h
  unfold ofRat
  split
  · rename_i hnone
    cases hx.symm.trans hnone
  rename_i x' hx'
  obtain rfl : x = x' := some.inj (hx.symm.trans hx')
  split
  · rename_i hnone
    cases hs.symm.trans hnone
  rename_i d' hd'
  simp only [finite.injEq]
  exact some.inj (hd'.symm.trans hs)

def isNaN : Float64 → Bool
  | .nan => true
  | _ => false

def isInf : Float64 → Bool
  | .inf _ => true
  | _ => false

def decimal : Float64 → Decimal
  | .finite d _ => d
  | _ => ⟨0,0⟩

def negative : Float64 → Bool
  | .finite d _ => d.coef < 0
  | .inf neg => neg
  | .nan => false

def positive : Float64 → Bool
  | .finite d _ => 0 < d.coef
  | .inf neg => !neg
  | .nan => false

def isZero : Float64 → Bool
  | .finite d _ => d.coef = 0
  | _ => false

def fixed2 : Float64 → String
  | .nan => "NaN"
  | .inf neg => if neg then "-Inf" else "+Inf"
  | .finite d _ =>
    let hundredths := (roundHalfEven (100*|(nearest d.value).getD 0|)).toNat
    (if d.coef < 0 then "-" else "") ++ toString (hundredths/100) ++ "." ++
      (if hundredths % 100 < 10 then "0" else "") ++ toString (hundredths % 100)

/-- Printed without decimals: the exact binary value, ties to even. -/
def fixed0 : Float64 → String
  | .nan => "NaN"
  | .inf neg => if neg then "-Inf" else "+Inf"
  | .finite d _ => (if d.coef < 0 then "-" else "") ++ toString (roundHalfEven |(nearest d.value).getD 0|).toNat

def toInt? : Float64 → Option ℤ
  | .finite d _ => if d.value.den = 1 then some d.value.num else none
  | _ => none

variable {n : ℤ}

theorem ofInt_toInt? {x : Float64} (h : x.toInt? = some n) : ofInt n = x := by
  cases x with
  | nan => cases h
  | inf neg => cases h
  | finite d hd =>
    simp only [toInt?,ite_none_right_eq_some,some.injEq] at h
    obtain ⟨hden,rfl⟩ := h
    have hvalue : d.value.num = d.value := Rat.coe_int_num_of_den_eq_one hden
    exact (congrArg ofRat hvalue).trans (ofRat_value d hd)

theorem ofRat_not_negative {q : ℚ} (h : 0 ≤ q) : (ofRat q).negative = false := by
  unfold ofRat
  split
  · simp [negative,h]
  rename_i x hx
  split
  · rfl
  · rename_i d hd
    simpa [negative] using shortest_nonneg (nearest_nonneg h hx) hd

theorem toString_nat_injective {m n : ℕ} (h : toString m = toString n) : m = n := by
  have hdigits : Nat.toDigits 10 m = Nat.toDigits 10 n := by
    have hrepr : Nat.repr m = Nat.repr n := h
    exact String.ofList_injective hrepr
  have hread := congrArg (Nat.ofDigitChars 10 · 0) hdigits
  simpa only [Nat.ofDigitChars_toDigits (by decide : 1 < 10) (by decide : 10 ≤ 10)] using hread

theorem fixed0_of_toInt? {d : Decimal} {hd : (nearest d.value).bind shortest = some d}
    (h : (finite d hd).toInt? = some n) (hn : 0 ≤ n) : ∃ m : ℕ, (finite d hd).fixed0 = toString m ∧ shortest m = some d := by
  simp only [toInt?,ite_none_right_eq_some,some.injEq] at h
  obtain ⟨hden,rfl⟩ := h
  have hvalue : d.value.num = d.value := Rat.coe_int_num_of_den_eq_one hden
  have hnonneg : 0 ≤ d.value := hvalue ▸ Int.cast_nonneg hn
  obtain ⟨q,hq,hshort⟩ := bind_eq_some_iff.mp hd
  have hcoef : ¬ d.coef < 0 := by
    intro hneg
    have := mul_neg_of_neg_of_pos (Int.cast_lt_zero.mpr hneg) (tenPow_pos d.exp)
    exact absurd hnonneg (not_le.mpr this)
  have hq' : nearest d.value.num = some q := by rw [hvalue,hq]
  obtain ⟨m,rfl⟩ := nearest_intCast hq'
  have hm : 0 ≤ m := Int.cast_nonneg_iff.mp (nearest_nonneg hnonneg hq)
  obtain ⟨k,rfl⟩ := Int.eq_ofNat_of_zero_le hm
  refine ⟨k,?_,by simpa using hshort⟩
  rw [fixed0,if_neg hcoef,hq]
  simp only [getD_some,abs_of_nonneg (Int.cast_nonneg hm),roundHalfEven_intCast]
  rfl

theorem fixed0_injective {x y : Float64} {m : ℤ} (hx : x.toInt? = some m) (hy : y.toInt? = some n) (hm : 0 ≤ m)
    (hn : 0 ≤ n) (h : x.fixed0 = y.fixed0) : x = y := by
  cases x with
  | nan => cases hx
  | inf neg => cases hx
  | finite d hd =>
    cases y with
    | nan => cases hy
    | inf neg => cases hy
    | finite e he =>
      obtain ⟨k,hk,hshort⟩ := fixed0_of_toInt? hx hm
      obtain ⟨l,hl,hshort'⟩ := fixed0_of_toInt? hy hn
      obtain rfl : k = l := toString_nat_injective (hk.symm.trans (h.trans hl))
      obtain rfl : d = e := some.inj (hshort.symm.trans hshort')
      rfl

def value : Float64 → ℚ
  | .finite d _ => (nearest d.value).getD 0
  | _ => 0

def neg : Float64 → Float64
  | .nan => .nan
  | .inf negative => .inf !negative
  | x => ofRat (-x.value)

def abs : Float64 → Float64
  | .nan => .nan
  | .inf _ => .inf false
  | x => ofRat |x.value|

def add : Float64 → Float64 → Float64
  | .nan, _ => .nan
  | _, .nan => .nan
  | .inf a, .inf b => if a = b then .inf a else .nan
  | .inf a, _ => .inf a
  | _, .inf b => .inf b
  | x, y => ofRat (x.value+y.value)

def sub (x y : Float64) : Float64 := x.add y.neg

def mul : Float64 → Float64 → Float64
  | .nan, _ => .nan
  | _, .nan => .nan
  | .inf a, y => if y.isZero then .nan else .inf (a != y.negative)
  | x, .inf b => if x.isZero then .nan else .inf (x.negative != b)
  | x, y => ofRat (x.value*y.value)

/-- Division by a finite number that is not zero. -/
def divBy (x : Float64) (n : ℕ) : Float64 :=
  match x with
  | .nan => .nan
  | .inf a => .inf a
  | x => ofRat (x.value/n)

def lt : Float64 → Float64 → Bool
  | .nan, _ => false
  | _, .nan => false
  | .inf a, .inf b => a && !b
  | .inf a, _ => a
  | _, .inf b => !b
  | x, y => x.value < y.value

def le : Float64 → Float64 → Bool
  | .nan, _ => false
  | _, .nan => false
  | .inf a, .inf b => a || !b
  | .inf a, _ => a
  | _, .inf b => !b
  | x, y => x.value ≤ y.value

end Float64

def truncate (q : ℚ) : ℤ := if 0 ≤ q then ⌊q⌋ else ⌈q⌉

/-- The conversion of a double that no machine integer can hold depends on the machine. -/
def toInt64 (outOfRange : Float64 → ℤ) (x : Float64) : ℤ :=
  match x with
  | .finite _ _ =>
    let n := truncate x.value
    if -2^63 ≤ n ∧ n < 2^63 then n else outOfRange x
  | _ => outOfRange x

end LedgerForge
