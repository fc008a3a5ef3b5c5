import Mathlib.Data.List.Sigma
import Mathlib.Data.String.Basic
import LedgerForge.Library.Entries
import LedgerForge.Metadata.Controls
import LedgerForge.Model.Amount
import LedgerForge.Numeric.DecimalArithmetic

/-! # Splitting an amount

A split names its legs with a fixed amount, a percentage or what is left. Amounts are exact decimals until they are cut to
minor units. A plan is what the legs ask for in rational numbers: its split rounds down and hands the rest to the largest
leg, so it keeps the total, and no leg loses a whole minor unit.
-/

namespace LedgerForge.Distributions

open Entries Metadata

variable {dists : List Distribution}

def isLeftDistribution (d : Distribution) : Bool := d.distribution = "left" ∨ d.preciseDistribution = "left"

def isPercentageDistribution (d : Distribution) : Bool := d.distribution.toList.getLast? = some '%'

def setString (text : String) : Option ℤ :=
  let (negative,digits) := splitSign text.toList
  if digits ≠ [] ∧ digits.all Char.isDigit = true then
    some (if negative then -(Nat.ofDigitChars 10 digits 0 : ℤ) else Nat.ofDigitChars 10 digits 0)
  else none

def parseFixedAmount (dist : Distribution) (precisionDec : Decimal) : Except String Decimal :=
  if dist.preciseDistribution ≠ "" then
    if 4096 < dist.preciseDistribution.utf8ByteSize then .error "precise_distribution exceeds 4096 characters"
    else match setString dist.preciseDistribution with
      | none => .error "invalid precise_distribution format: must be an integer value in minor units"
      | some amount => if amount < 0 then .error "distribution amount cannot be negative" else .ok (.ofInt amount)
  else if dist.distribution ≠ "" then
    match parseMonetaryDecimal dist.distribution with
    | .error _ => .error "invalid fixed amount format"
    | .ok amount => if amount.sign < 0 then .error "distribution amount cannot be negative" else .ok (amount.mul precisionDec)
  else .error "distribution amount is required"

def parsePercentage (dist : Distribution) : Except String Decimal :=
  match parseMonetaryDecimal (String.ofList dist.distribution.toList.dropLast) with
  | .error _ => .error "invalid percentage format"
  | .ok percentage => if percentage.sign < 0 then .error "distribution percentage cannot be negative" else .ok percentage

structure DistributionState where
  totalAmountDec : Decimal
  amountLeftDec : Decimal
  precisionDec : Decimal
  totalPercentage : Decimal
  fixedTotalDec : Decimal
  fixedAmounts : List (String × Decimal)
  percentAmounts : List (String × Decimal)
  result : List (String × ℤ)

namespace DistributionState

def share (s : DistributionState) (percentage : Decimal) : Decimal := (s.totalAmountDec.mul percentage).shift (-2)

def addFixed (s : DistributionState) (id : String) (amount : Decimal) : DistributionState :=
  { s with fixedAmounts := put s.fixedAmounts id amount, fixedTotalDec := s.fixedTotalDec.add amount,
           amountLeftDec := s.amountLeftDec.sub amount }

def addPercentage (s : DistributionState) (id : String) (percentage : Decimal) : DistributionState :=
  let rawAmountDec := s.share percentage
  { s with totalPercentage := s.totalPercentage.add percentage,
           percentAmounts := put s.percentAmounts id
             (if 0 < rawAmountDec.sign ∧ rawAmountDec.cmp (.ofInt 1) = .lt then .ofInt 0 else rawAmountDec) }

end DistributionState

open DistributionState

def processFixedDistributions : List Distribution → DistributionState → Except String DistributionState
  | [], s => .ok s
  | dist :: dists, s =>
    if isLeftDistribution dist ∨ isPercentageDistribution dist then processFixedDistributions dists s
    else match parseFixedAmount dist s.precisionDec with
      | .error e => .error e
      | .ok amount =>
        if amount.cmp s.amountLeftDec = .gt then .error "fixed amount exceeds remaining transaction amount"
        else processFixedDistributions dists (s.addFixed dist.identifier amount)

def processPercentageDistributions : List Distribution → DistributionState → Except String DistributionState
  | [], s => .ok s
  | dist :: dists, s =>
    if isLeftDistribution dist ∨ ¬ isPercentageDistribution dist then processPercentageDistributions dists s
    else match parsePercentage dist with
      | .error e => .error e
      | .ok percentage => processPercentageDistributions dists (s.addPercentage dist.identifier percentage)

def validateDistributions (s : DistributionState) : Except String Unit :=
  if s.totalPercentage.cmp (.ofInt 100) = .gt ∨ (s.fixedTotalDec.add (s.share s.totalPercentage)).cmp s.totalAmountDec = .gt then
    .error "total distributions exceed 100% or total amount"
  else .ok ()

/-- The larger of two entries, where no name stands for nothing; the first identifier decides between equal amounts. -/
def larger {α : Type} (cmp : α → α → Ordering) (found e : String × α) : String × α :=
  if found.1 = "" ∨ cmp e.2 found.2 = .gt ∨ (cmp e.2 found.2 = .eq ∧ e.1 < found.1) then e else found

def largest {α : Type} (cmp : α → α → Ordering) (zero : α) (amounts : List (String × α)) : String × α :=
  amounts.foldl (larger cmp) ("",zero)

def findLargestDecimal (amounts : List (String × Decimal)) : String × Decimal := largest Decimal.cmp (.ofInt 0) amounts

def sumDecimals (amounts : List (String × Decimal)) : Decimal :=
  amounts.foldl (fun total e => total.add e.2) (.ofInt 0)

def adjustPercentageAmounts (s : DistributionState) : DistributionState :=
  if s.percentAmounts = [] then s
  else
    let diff := (s.share s.totalPercentage).sub (sumDecimals s.percentAmounts)
    if diff.abs.cmp (.ofInt 0) ≠ .gt then s
    else
      let found := findLargestDecimal s.percentAmounts
      if found.1 ≠ "" ∧ 0 < found.2.sign then { s with percentAmounts := put s.percentAmounts found.1 (found.2.add diff) } else s

def combineDistributions (s : DistributionState) : DistributionState :=
  let fixed := s.fixedAmounts.foldl (fun result e => put result e.1 e.2.bigInt) s.result
  { s with result := s.percentAmounts.foldl (fun result e => put result e.1 e.2.bigInt) fixed,
           amountLeftDec := s.percentAmounts.foldl (fun left e => left.sub e.2) s.amountLeftDec }

def processLeftDistribution (dists : List Distribution) (s : DistributionState) : Except String DistributionState :=
  match dists.find? isLeftDistribution with
  | none => .ok s
  | some dist =>
    if dist.identifier ∈ keys s.result then .error "multiple identifiers with 'left' distribution"
    else .ok { s with result := put s.result dist.identifier s.amountLeftDec.bigInt }

def balanceDistributions (s : DistributionState) : List (String × ℤ) :=
  let sumDec := s.result.foldl (fun sum e => sum.add (.ofInt e.2)) (.ofInt 0)
  if sumDec.cmp s.totalAmountDec = .eq then s.result
  else
    let found := largest compare 0 s.result
    if found.1 ≠ "" then put s.result found.1 (found.2+(s.totalAmountDec.sub sumDec).bigInt) else s.result

def validateLegs (dists : List Distribution) (seen : List String) : Except String Unit :=
  match dists with
  | [] => .ok ()
  | dist :: dists =>
    if dist.identifier = "" ∨ dist.identifier ∈ seen then .error "distribution identifiers must be non-empty and unique"
    else if dist.distribution ≠ "" ∧ dist.preciseDistribution ≠ "" then
      .error "provide either distribution or precise_distribution, not both"
    else validateLegs dists (dist.identifier :: seen)

def handleZeroAmount (dists : List Distribution) : List (String × ℤ) :=
  dists.foldl (fun result dist => put result dist.identifier 0) []

def initialState (total precision : ℤ) : DistributionState where
  totalAmountDec := .ofInt total
  amountLeftDec := .ofInt total
  precisionDec := .ofInt precision
  totalPercentage := .ofInt 0
  fixedTotalDec := .ofInt 0
  fixedAmounts := []
  percentAmounts := []
  result := []

def leftCount (dists : List Distribution) : ℕ := dists.countP isLeftDistribution

def calculateDistributionsPrecise (totalPreciseAmount : Option ℤ) (dists : List Distribution) (precision : ℤ) :
    Except String (List (String × ℤ)) :=
  match totalPreciseAmount with
  | none => .error "total amount must be non-negative"
  | some total =>
    if total < 0 then .error "total amount must be non-negative"
    else if precision ≤ 0 then .error "precision must be positive"
    else if dists = [] then .error "distributions are required"
    else do
      validateLegs dists []
      if 1 < leftCount dists then throw "multiple identifiers with 'left' distribution"
      let s ← processFixedDistributions dists (initialState total precision)
      let s ← processPercentageDistributions dists s
      validateDistributions s
      if total = 0 then return handleZeroAmount dists
      let s := combineDistributions (adjustPercentageAmounts s)
      if s.fixedTotalDec.coef = 0 ∧ s.totalPercentage.coef = 0 ∧ leftCount dists = 0 then
        throw "distributions must allocate a positive amount"
      let s ← processLeftDistribution dists s
      return balanceDistributions s

open List hiding keys
open Function Int

section Largest

variable {α β : Type} {entries entries' : List (String × α)}

theorem foldl_larger_mem (cmp : α → α → Ordering) (entries : List (String × α)) (found : String × α) :
    entries.foldl (larger cmp) found = found ∨ entries.foldl (larger cmp) found ∈ entries := by
  induction entries generalizing found with
  | nil => exact .inl rfl
  | cons e entries ih =>
    rw [foldl_cons]
    have hstep : larger cmp found e = found ∨ larger cmp found e = e := by
      unfold larger
      split
      · exact .inr rfl
      · exact .inl rfl
    rcases ih (larger cmp found e) with hsame | hmem
    · rw [hsame]
      refine hstep.imp id fun h => ?_
      rw [h]
      exact mem_cons_self
    · exact .inr (mem_cons_of_mem _ hmem)

theorem largest_cons (cmp : α → α → Ordering) (zero : α) (e : String × α) (entries : List (String × α)) :
    largest cmp zero (e :: entries) = entries.foldl (larger cmp) e := by
  rw [largest,foldl_cons,larger,if_pos (.inl rfl)]

theorem largest_mem (cmp : α → α → Ordering) (zero : α) (hne : entries ≠ []) : largest cmp zero entries ∈ entries := by
  cases entries with
  | nil => exact absurd rfl hne
  | cons e entries =>
    rw [largest_cons]
    rcases foldl_larger_mem cmp entries e with h | h
    · rw [h]
      exact mem_cons_self
    · exact mem_cons_of_mem _ h

/-- Amounts are compared by what they stand for. -/
theorem largest_map [Ord β] {cmp : α → α → Ordering} {f : α → β} (hcmp : ∀ a b, cmp a b = compare (f a) (f b)) (zero : α)
    (entries : List (String × α)) : largest compare (f zero) (entries.map fun e => (e.1,f e.2)) =
      ((largest cmp zero entries).1,f (largest cmp zero entries).2) := by
  suffices h : ∀ found : String × α, (entries.map fun e => (e.1,f e.2)).foldl (larger compare) (found.1,f found.2) =
      ((entries.foldl (larger cmp) found).1,f (entries.foldl (larger cmp) found).2) from h ("",zero)
  induction entries with
  | nil => exact fun _ => rfl
  | cons e entries ih =>
    intro found
    have hstep : larger compare (found.1,f found.2) (e.1,f e.2) = ((larger cmp found e).1,f (larger cmp found e).2) := by
      simp only [larger,hcmp]
      split <;> rfl
    rw [map_cons,foldl_cons,foldl_cons,hstep,ih]

variable [LinearOrder β] {e m : String × β} {bs bs' : List (String × β)}

/-- The entry is not preferred to the other one. -/
def Below (e m : String × β) : Prop := e.2 < m.2 ∨ (e.2 = m.2 ∧ m.1 ≤ e.1)

theorem Below.trans {l : String × β} (h : Below e m) (h' : Below m l) : Below e l := by
  rcases h with h | ⟨heq,hle⟩ <;> rcases h' with h' | ⟨heq',hle'⟩
  · exact .inl (h.trans h')
  · exact .inl (heq' ▸ h)
  · exact .inl (heq ▸ h')
  · exact .inr ⟨heq.trans heq',hle'.trans hle⟩

theorem below_larger (found e : String × β) (hfound : found.1 ≠ "") :
    Below found (larger compare found e) ∧ Below e (larger compare found e) := by
  unfold larger
  simp only [compare_gt_iff_gt,compare_eq_iff_eq]
  split
  · rename_i h
    refine ⟨?_,.inr ⟨rfl,le_rfl⟩⟩
    rcases h with h | h | ⟨heq,hlt⟩
    · exact absurd h hfound
    · exact .inl h
    · exact .inr ⟨heq.symm,hlt.le⟩
  · rename_i h
    rw [not_or,not_or,not_and_or] at h
    refine ⟨.inr ⟨rfl,le_rfl⟩,?_⟩
    rcases (not_lt.mp h.2.1).lt_or_eq with hlt | heq
    · exact .inl hlt
    · exact .inr ⟨heq,not_lt.mp (h.2.2.resolve_left (not_not.mpr heq))⟩

theorem below_foldl_larger (hnames : ∀ e ∈ bs, e.1 ≠ "") (found : String × β) (hfound : found.1 ≠ "") :
    ∀ e ∈ found :: bs, Below e (bs.foldl (larger compare) found) := by
  induction bs generalizing found with
  | nil => simp [Below]
  | cons e bs ih =>
    rw [forall_mem_cons] at hnames
    obtain ⟨hleft,hright⟩ := below_larger found e hfound
    have hnext : (larger compare found e).1 ≠ "" := by
      unfold larger
      split
      · exact hnames.1
      · exact hfound
    have hrest := forall_mem_cons.mp (ih hnames.2 _ hnext)
    rw [forall_mem_cons,forall_mem_cons]
    exact ⟨hleft.trans hrest.1,hright.trans hrest.1,hrest.2⟩

theorem below_largest (zero : β) (hnames : ∀ e ∈ bs, e.1 ≠ "") : ∀ e ∈ bs, Below e (largest compare zero bs) := by
  cases bs with
  | nil => exact nofun
  | cons e bs =>
    exact below_foldl_larger (forall_mem_cons.mp hnames).2 e (forall_mem_cons.mp hnames).1

/-- The order of the entries does not matter: equal amounts are told apart by their identifiers. -/
theorem largest_perm (zero : β) (hperm : bs.Perm bs') (hn : (keys bs).Nodup) (hnames : ∀ e ∈ bs, e.1 ≠ "") :
    largest compare zero bs = largest compare zero bs' := by
  by_cases hne : bs = []
  · subst hne
    rw [hperm.nil_eq]
  have hne' : bs' ≠ [] := fun h => hne (perm_nil.mp (h ▸ hperm))
  have hmem := hperm.mem_iff.mpr (largest_mem compare zero hne')
  have hone := below_largest zero hnames _ hmem
  have htwo := below_largest zero (fun e he => hnames e (hperm.mem_iff.mpr he)) _
    (hperm.mem_iff.mp (largest_mem compare zero hne))
  refine inj_on_of_nodup_map hn (largest_mem _ zero hne) hmem ?_
  rcases hone with hlt | ⟨heq,hle⟩ <;> rcases htwo with hlt' | ⟨heq',hle'⟩
  · exact absurd hlt hlt'.asymm
  · exact absurd heq' hlt.ne'
  · exact absurd heq hlt'.ne'
  · exact le_antisymm hle hle'

end Largest

/-- What the legs ask for: minor units, percentages, or what is left. -/
structure Plan where
  fixed : List (String × ℚ)
  percentages : List (String × ℚ)
  left : List String

def total (amounts : List (String × ℚ)) : ℚ := (amounts.map Prod.snd).sum

namespace Plan

variable (p : Plan) (n : ℤ)

def shares : List (String × ℚ) := p.percentages.map fun e => (e.1,n*e.2/100)

/-- Shares below one minor unit are dropped. -/
def rounded : List (String × ℚ) := (p.shares n).map fun e => (e.1,if 0 < e.2 ∧ e.2 < 1 then 0 else e.2)

def adjusted : List (String × ℚ) :=
  let diff := total (p.shares n)-total (p.rounded n)
  let found := largest compare 0 (p.rounded n)
  if diff ≠ 0 ∧ 0 < found.2 then put (p.rounded n) found.1 (found.2+diff) else p.rounded n

def exact : List (String × ℚ) := p.fixed ++ p.adjusted n

def cut : List (String × ℤ) :=
  (p.exact n).map (fun e => (e.1,⌊e.2⌋)) ++ p.left.map fun id => (id,⌊n-total (p.exact n)⌋)

def split : List (String × ℤ) :=
  let rest := n-((p.cut n).map Prod.snd).sum
  let found := largest compare 0 (p.cut n)
  if rest = 0 then p.cut n else put (p.cut n) found.1 (found.2+rest)

/-- The exact share of every leg. -/
def due : List (String × ℚ) :=
  p.fixed ++ p.shares n ++ p.left.map fun id => (id,n-total p.fixed-total (p.shares n))

def legs : List String := keys p.fixed ++ keys p.percentages ++ p.left

/-- A plan that can be kept. -/
structure Sound : Prop where
  distinct : p.legs.Nodup
  fixed_nonneg : ∀ e ∈ p.fixed, 0 ≤ e.2
  percentages_nonneg : ∀ e ∈ p.percentages, 0 ≤ e.2
  nonneg : 0 ≤ n
  within : total p.fixed+total (p.shares n) ≤ n
  one_left : p.left.length ≤ 1

end Plan

section Raised

variable {α : Type} [PartialOrder α] {l l' : List (String × α)}

/-- The same legs, none with less. -/
structure Raised (l l' : List (String × α)) : Prop where
  keys : (keys l').Perm (keys l)
  le : ∀ e' ∈ l', ∃ e ∈ l, e.1 = e'.1 ∧ e.2 ≤ e'.2

theorem Raised.refl (l : List (String × α)) : Raised l l := ⟨.refl _,fun e he => ⟨e,he,rfl,le_rfl⟩⟩

variable [AddCommGroup α] [IsOrderedAddMonoid α]

theorem raised_put {found : String × α} (hn : (Entries.keys l).Nodup) (hmem : found ∈ l) {d : α} (hd : 0 ≤ d) :
    Raised l (put l found.1 (found.2+d)) := by
  refine ⟨perm_keys_put hn (mem_map_of_mem hmem),fun e he => ?_⟩
  rcases mem_put.mp he with ⟨hold,-⟩ | rfl
  · exact ⟨e,hold,rfl,le_rfl⟩
  · exact ⟨found,hmem,rfl,le_add_of_nonneg_right hd⟩

omit [PartialOrder α] [IsOrderedAddMonoid α] in
theorem sum_raised {found : String × α} (hn : (Entries.keys l).Nodup) (hmem : found ∈ l) (d : α) :
    ((put l found.1 (found.2+d)).map Prod.snd).sum = (l.map Prod.snd).sum+d := by
  have hsum : ((put l found.1 (found.2+d)).map Prod.snd).sum+found.2 = (l.map Prod.snd).sum+(found.2+d) :=
    sum_put (f := id) hn hmem
  rw [add_left_comm] at hsum
  exact add_right_cancel (hsum.trans (add_comm _ _))

end Raised

namespace Plan

variable {p : Plan} {n : ℤ}

theorem keys_shares : keys (p.shares n) = keys p.percentages := by
  simp [shares,keys,comp_def]

theorem keys_rounded : keys (p.rounded n) = keys p.percentages := by
  rw [← keys_shares (n := n)]
  simp [rounded,keys,comp_def]

theorem Sound.shares_nonneg (h : p.Sound n) : ∀ e ∈ p.shares n, 0 ≤ e.2 := by
  refine forall_mem_map.mpr fun e he => ?_
  have := h.percentages_nonneg e he
  have := h.nonneg
  positivity

/-- Rounding takes less than one minor unit. -/
theorem Sound.rounded_le (h : p.Sound n) : ∀ e ∈ p.rounded n, 0 ≤ e.2 ∧ ∃ x ∈ p.shares n, x.1 = e.1 ∧ e.2 ≤ x.2 ∧
    x.2-1 < ⌊e.2⌋ := by
  refine forall_mem_map.mpr fun x hx => ?_
  split
  · rename_i hsmall
    refine ⟨le_rfl,x,hx,rfl,hsmall.1.le,?_⟩
    rw [floor_zero,cast_zero]
    linarith [hsmall.2]
  · exact ⟨h.shares_nonneg x hx,x,hx,rfl,le_rfl,sub_one_lt_floor _⟩

theorem total_rounded_le : total (p.rounded n) ≤ total (p.shares n) := by
  unfold total rounded
  rw [map_map]
  refine sum_le_sum fun e he => ?_
  simp only [comp_apply]
  split <;> linarith

theorem Sound.percentages_distinct (h : p.Sound n) : (keys p.percentages).Nodup :=
  (nodup_append.mp (nodup_append.mp h.distinct).1).2.1

theorem Sound.adjusted_raised (h : p.Sound n) : Raised (p.rounded n) (p.adjusted n) ∧
    total (p.adjusted n) ≤ total (p.shares n) := by
  unfold adjusted
  dsimp only
  split
  · rename_i hdiff
    have hn : (keys (p.rounded n)).Nodup := keys_rounded ▸ h.percentages_distinct
    have hne : p.rounded n ≠ [] := by
      intro hempty
      rw [hempty] at hdiff
      exact absurd hdiff.2 (lt_irrefl _)
    have hmem := largest_mem compare 0 hne
    refine ⟨raised_put hn hmem (sub_nonneg.mpr total_rounded_le),?_⟩
    rw [total,sum_raised hn hmem,← total]
    linarith
  · exact ⟨.refl _,total_rounded_le⟩

theorem keys_cut : keys (p.cut n) = keys p.fixed ++ keys (p.adjusted n) ++ p.left := by
  simp [cut,exact,keys,comp_def]

theorem Sound.perm_keys_cut (h : p.Sound n) : (keys (p.cut n)).Perm p.legs := by
  rw [keys_cut,legs,← keys_rounded]
  exact (h.adjusted_raised.1.keys.append_left _).append_right _

theorem Sound.exact_nonneg (h : p.Sound n) : ∀ e ∈ p.exact n, 0 ≤ e.2 := by
  refine forall_mem_append.mpr ⟨h.fixed_nonneg,fun e he => ?_⟩
  obtain ⟨x,hx,-,hle⟩ := h.adjusted_raised.1.le e he
  exact (h.rounded_le x hx).1.trans hle

theorem Sound.total_exact_le (h : p.Sound n) : total (p.exact n) ≤ total p.fixed+total (p.shares n) := by
  have := h.adjusted_raised.2
  simp only [total,exact,map_append,sum_append] at this ⊢
  linarith

theorem sum_floor_le (amounts : List (String × ℚ)) : (((amounts.map fun e => ⌊e.2⌋).sum : ℤ) : ℚ) ≤ total amounts := by
  rw [cast_list_sum,map_map]
  exact sum_le_sum fun e _ => floor_le e.2

theorem Sound.sum_cut_le (h : p.Sound n) : ((p.cut n).map Prod.snd).sum ≤ n := by
  have hexact := sum_floor_le (p.exact n)
  have hwithin := h.total_exact_le.trans h.within
  have hleft : (((p.left.map fun _ => ⌊n-total (p.exact n)⌋).sum)) ≤ n-total (p.exact n) := by
    have hfloor := floor_le (n-total (p.exact n))
    match hl : p.left, h.one_left with
    | [], _ => simpa using hwithin
    | [id], _ => simpa using hfloor
  have hsum : (((p.cut n).map Prod.snd).sum : ℚ) ≤ n := by
    simp only [cut,map_append,map_map,sum_append,cast_add,comp_def]
    linarith
  exact_mod_cast hsum

/-- The split keeps the total, and raises what the cuts left. -/
theorem Sound.split_raised (h : p.Sound n) (hne : p.legs ≠ []) : Raised (p.cut n) (p.split n) ∧
    ((p.split n).map Prod.snd).sum = n := by
  have hcut : p.cut n ≠ [] := fun hempty => hne (perm_nil.mp (by simpa [hempty,keys] using h.perm_keys_cut.symm))
  have hn := h.perm_keys_cut.nodup_iff.mpr h.distinct
  have hmem := largest_mem compare 0 hcut
  unfold split
  dsimp only
  split
  · exact ⟨.refl _,by omega⟩
  refine ⟨raised_put hn hmem (sub_nonneg.mpr h.sum_cut_le),?_⟩
  rw [sum_raised hn hmem]
  omega

theorem Sound.split_nonneg (h : p.Sound n) (hne : p.legs ≠ []) : ∀ e ∈ p.split n, 0 ≤ e.2 := by
  intro e he
  obtain ⟨c,hc,-,hle⟩ := (h.split_raised hne).1.le e he
  refine le_trans ?_ hle
  rcases mem_append.mp hc with hc | hc
  · obtain ⟨x,hx,rfl⟩ := mem_map.mp hc
    exact floor_nonneg.mpr (h.exact_nonneg x hx)
  · obtain ⟨x,hx,rfl⟩ := mem_map.mp hc
    exact floor_nonneg.mpr (sub_nonneg.mpr (h.total_exact_le.trans h.within))

/-- Of nothing every leg gets nothing. -/
theorem Sound.split_zero (h : p.Sound 0) (hne : p.legs ≠ []) : (p.legs.map fun id => (id,(0 : ℤ))).Perm (p.split 0) := by
  have hkeys := (h.split_raised hne).1.keys.trans h.perm_keys_cut
  have hzero : ∀ e ∈ p.split 0, e.2 = 0 := fun e he => all_zero_of_le_zero_le_of_sum_eq_zero
    (forall_mem_map.mpr (h.split_nonneg hne)) (h.split_raised hne).2 (mem_map_of_mem he)
  refine (hkeys.symm.map _).trans (.of_eq ?_)
  rw [keys,map_map]
  refine (map_congr_left fun e he => ?_).trans (map_id _)
  rw [← hzero e he]
  rfl

theorem keys_due : keys (p.due n) = p.legs := by
  rw [legs,← keys_shares (n := n)]
  simp [due,keys,comp_def]

/-- No leg loses a whole minor unit. -/
theorem Sound.loses_less (h : p.Sound n) (hne : p.legs ≠ []) {id : String} {x : ℚ} {y : ℤ} (hx : (id,x) ∈ p.due n)
    (hy : (id,y) ∈ p.split n) : x-1 < y := by
  have hn : (keys (p.due n)).Nodup := keys_due ▸ h.distinct
  -- what is due to a leg is determined by its identifier
  have hunique : ∀ {z}, (id,z) ∈ p.due n → z = x := fun hz => (Prod.mk.inj (inj_on_of_nodup_map hn hz hx rfl)).2
  obtain ⟨⟨id',c⟩,hc,hid,hle⟩ := (h.split_raised hne).1.le _ hy
  obtain rfl : id' = id := hid
  refine lt_of_lt_of_le ?_ (cast_le.mpr hle)
  rcases mem_append.mp hc with hc | hc
  · obtain ⟨⟨_,e⟩,he,heq⟩ := mem_map.mp hc
    obtain ⟨rfl,rfl⟩ := Prod.mk.inj heq
    rcases mem_append.mp he with he | he
    · rw [← hunique (mem_append_left _ (mem_append_left _ he))]
      exact sub_one_lt_floor _
    obtain ⟨⟨_,r⟩,hr,rfl,hre⟩ := h.adjusted_raised.1.le _ he
    obtain ⟨-,⟨_,z⟩,hz,rfl,-,hlt⟩ := h.rounded_le _ hr
    rw [← hunique (mem_append_left _ (mem_append_right _ hz))]
    exact hlt.trans_le (cast_le.mpr (floor_le_floor hre))
  · obtain ⟨_,hleft,heq⟩ := mem_map.mp hc
    obtain ⟨rfl,rfl⟩ := Prod.mk.inj heq
    rw [← hunique (mem_append_right _ (mem_map_of_mem hleft))]
    refine lt_of_le_of_lt ?_ (sub_one_lt_floor _)
    linarith [h.total_exact_le]

end Plan

theorem total_sub_le {l : List (String × ℚ)} {m : List (String × ℤ)} (hkeys : (keys l).Perm (keys m))
    (hlt : ∀ id x y, (id,x) ∈ l → (id,y) ∈ m → x-1 < y) : total l-((m.map Prod.snd).sum : ℤ) ≤ l.length := by
  induction l generalizing m with
  | nil =>
    obtain rfl : m = [] := by simpa [keys] using hkeys.symm.eq_nil
    simp [total]
  | cons e l ih =>
    obtain ⟨⟨_,y⟩,hy,rfl⟩ := mem_map.mp (hkeys.mem_iff.mp mem_cons_self)
    obtain ⟨pre,post,rfl⟩ := append_of_mem hy
    have hrest : (keys l).Perm (keys (pre ++ post)) := by
      refine List.Perm.cons_inv (hkeys.trans ?_)
      simp [keys]
    have hle := ih hrest fun id x z hx hz => hlt id x z (mem_cons_of_mem _ hx) (mem_append.mpr
      ((mem_append.mp hz).imp_right (mem_cons_of_mem _)))
    have hone := hlt _ _ _ mem_cons_self hy
    simp only [total,map_append,map_cons,sum_append,sum_cons,length_cons] at hle ⊢
    push_cast at hle ⊢
    linarith

/-- Amounts with one sum, of which none is lower by one, differ by less than their number. -/
theorem abs_sub_lt_length {l : List (String × ℚ)} {m : List (String × ℤ)} (hkeys : (keys l).Perm (keys m))
    (hsum : total l = ((m.map Prod.snd).sum : ℤ)) (hlt : ∀ id x y, (id,x) ∈ l → (id,y) ∈ m → x-1 < y) {id : String} {x : ℚ}
    {y : ℤ} (hx : (id,x) ∈ l) (hy : (id,y) ∈ m) : |(y : ℚ)-x| < l.length := by
  obtain ⟨pre,post,rfl⟩ := append_of_mem hx
  obtain ⟨pre',post',rfl⟩ := append_of_mem hy
  have hrest : (keys (pre ++ post)).Perm (keys (pre' ++ post')) := by
    rw [keys,keys,map_append,map_append] at hkeys
    simpa [keys] using (perm_middle.symm.trans hkeys).trans perm_middle
  have hmem : ∀ {α : Type} {e : String × α} {pre post : List (String × α)} {z}, z ∈ pre ++ post → z ∈ pre ++ e :: post :=
    fun hz => mem_append.mpr ((mem_append.mp hz).imp_right (mem_cons_of_mem _))
  have hle := total_sub_le hrest fun id x y hx hy => hlt id x y (hmem hx) (hmem hy)
  have hone := hlt _ _ _ hx hy
  simp only [total,map_append,map_cons,sum_append,sum_cons,length_append,length_cons] at hle hsum ⊢
  push_cast at hle hsum ⊢
  rw [abs_lt]
  constructor <;> linarith

end LedgerForge.Distributions
