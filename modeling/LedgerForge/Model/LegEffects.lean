import LedgerForge.Model.Materialise

/-! # Applying a transaction to two balances

Each function returns the balances and the transaction as they stand afterwards, also when it fails, so that a failure
between the two legs stays visible.
-/

namespace LedgerForge

open Option

namespace Balance

def addCredit (b : Balance) (amount : ℤ) (inflight : Bool) : Balance :=
  if inflight then { b with counters.inflightCredit := b.counters.inflightCredit+amount }
  else { b with counters.credit := b.counters.credit+amount }

def addDebit (b : Balance) (amount : ℤ) (inflight : Bool) : Balance :=
  if inflight then { b with counters.inflightDebit := b.counters.inflightDebit+amount }
  else { b with counters.debit := b.counters.debit+amount }

/-- Recompute the inflight or the settled total; the other one is left as it was. -/
def computeBalance (b : Balance) (inflight : Bool) : Balance :=
  if inflight then { b with inflightBalance := b.counters.inflightCredit-b.counters.inflightDebit }
  else { b with balance := b.counters.credit-b.counters.debit }

def checkSufficientInflight (side : String) (held : ℤ) (amount : Option ℤ) : Except String ℤ :=
  match amount with
  | none => .error "inflight amount must be positive"
  | some a =>
    if a ≤ 0 then .error "inflight amount must be positive"
    else if held < a then
      .error ("insufficient inflight " ++ side ++ " balance: have " ++ toString held ++ ", need " ++ toString a)
    else .ok a

def checkSufficientInflightDebit (b : Balance) (amount : Option ℤ) : Except String ℤ :=
  checkSufficientInflight "debit" b.counters.inflightDebit amount

def checkSufficientInflightCredit (b : Balance) (amount : Option ℤ) : Except String ℤ :=
  checkSufficientInflight "credit" b.counters.inflightCredit amount

def settleDebit (b : Balance) (amount : ℤ) : Balance :=
  (({ b with counters.inflightDebit := b.counters.inflightDebit-amount,
             counters.debit := b.counters.debit+amount }).computeBalance true).computeBalance false

def settleCredit (b : Balance) (amount : ℤ) : Balance :=
  (({ b with counters.inflightCredit := b.counters.inflightCredit-amount,
             counters.credit := b.counters.credit+amount }).computeBalance true).computeBalance false

/-- Commit the debit leg; precision is applied to the transaction even when the check fails. -/
def commitInflightDebit (b : Balance) (t : Transaction) : Except String Balance × Transaction :=
  let (amount,t) := t.applyPrecision
  ((b.checkSufficientInflightDebit (some amount)).map b.settleDebit,t)

def commitInflightCredit (b : Balance) (t : Transaction) : Except String Balance × Transaction :=
  let (amount,t) := t.applyPrecision
  ((b.checkSufficientInflightCredit (some amount)).map b.settleCredit,t)

def releaseCredit (b : Balance) (amount : ℤ) : Balance :=
  ({ b with counters.inflightCredit := b.counters.inflightCredit-amount }).computeBalance true

def releaseDebit (b : Balance) (amount : ℤ) : Balance :=
  ({ b with counters.inflightDebit := b.counters.inflightDebit-amount }).computeBalance true

def rollbackInflightCredit (b : Balance) (amount : Option ℤ) : Except String Balance :=
  (b.checkSufficientInflightCredit amount).map b.releaseCredit

def rollbackInflightDebit (b : Balance) (amount : Option ℤ) : Except String Balance :=
  (b.checkSufficientInflightDebit amount).map b.releaseDebit

end Balance

def availableBalance (source : Balance) : ℤ :=
  source.balance-source.counters.inflightDebit-source.queuedDebitBalance.getD 0

def overdraftLimitPrecise (t : Transaction) : ℤ :=
  ((t.overdraftLimit.decimal.mul t.precision.decimal).round 0).bigInt

def canProcessTransaction (t : Transaction) (source : Balance) : Except String Unit :=
  if t.allowOverdraft && t.overdraftLimit.isZero then .ok ()
  else
    let amount := t.preciseAmount.getD 0
    let available := availableBalance source
    if amount ≤ available then .ok ()
    else if t.overdraftLimit.positive then
      if -overdraftLimitPrecise t ≤ available-amount then .ok ()
      else .error "transaction exceeds overdraft limit"
    else .error "insufficient funds in source balance"

/-- A transaction together with the two balances it touches. -/
structure Legs where
  transaction : Transaction
  source : Balance
  destination : Balance
deriving DecidableEq

namespace Legs

def updateBalances (l : Legs) : Option String × Legs :=
  match l.transaction.applyPrecisionChecked with
  | .error e => (some e,l)
  | .ok (amount,t) =>
    let t := { t with preciseAmount := some amount }
    match canProcessTransaction t l.source with
    | .error e => (some e,{ l with transaction := t })
    | .ok _ =>
      (none,{ transaction := t,
              source := (l.source.addDebit amount t.inflight).computeBalance t.inflight,
              destination := (l.destination.addCredit amount t.inflight).computeBalance t.inflight })

/-- Both reservations are compared with the precise amount before either leg is mutated. -/
def reservationError (l : Legs) : Option String :=
  match l.transaction.preciseAmount with
  | none => some "inflight transition amount must be positive"
  | some amount =>
    if amount ≤ 0 then some "inflight transition amount must be positive"
    else if l.source.counters.inflightDebit < amount ∨ l.destination.counters.inflightCredit < amount then
      some "insufficient inflight reservation"
    else none

/-- Commit the debit leg, then the credit leg with the transaction the first one left behind. -/
def commitLegs (l : Legs) : Option String × Legs :=
  match l.source.commitInflightDebit l.transaction with
  | (.error e,t) => (some ("commit inflight debit failed: " ++ e),{ l with transaction := t })
  | (.ok source,t) =>
    match l.destination.commitInflightCredit t with
    | (.error e,t) =>
      (some ("commit inflight credit failed: " ++ e),{ l with transaction := t, source := source })
    | (.ok destination,t) => (none,⟨t,source,destination⟩)

def voidLegs (l : Legs) : Option String × Legs :=
  match l.source.rollbackInflightDebit l.transaction.preciseAmount with
  | .error e => (some ("void inflight debit failed: " ++ e),l)
  | .ok source =>
    match l.destination.rollbackInflightCredit l.transaction.preciseAmount with
    | .error e => (some ("void inflight credit failed: " ++ e),{ l with source := source })
    | .ok destination => (none,{ l with source := source, destination := destination })

def applyTransactionToBalances (l : Legs) : Option String × Legs :=
  match l.transaction.status with
  | .commit =>
    match l.reservationError with
    | some e => (some e,l)
    | none => l.commitLegs
  | .void =>
    match l.reservationError with
    | some e => (some e,l)
    | none => l.voidLegs
  | _ => l.updateBalances

end Legs

open Transaction Balance

/-- The four ways a posting moves an amount. -/
inductive Movement
  | plain
  | hold
  | commit
  | void
deriving DecidableEq

namespace Movement

def debitSide (m : Movement) (a : ℤ) : Counters :=
  match m with
  | .plain => ⟨0,a,0,0⟩
  | .hold => ⟨0,0,0,a⟩
  | .commit => ⟨0,a,0,-a⟩
  | .void => ⟨0,0,0,-a⟩

def creditSide (m : Movement) (a : ℤ) : Counters :=
  match m with
  | .plain => ⟨a,0,0,0⟩
  | .hold => ⟨0,0,a,0⟩
  | .commit => ⟨a,0,-a,0⟩
  | .void => ⟨0,0,-a,0⟩

def settles : Movement → Bool
  | .commit | .void => true
  | _ => false

end Movement

def Transaction.movement (t : Transaction) : Movement :=
  match t.status with
  | .commit => .commit
  | .void => .void
  | _ => if t.inflight then .hold else .plain

def Transaction.majorAmount (t : Transaction) : Float64 :=
  Float64.ofRat { t with precision := t.precision.orOne }.majorUnits.value

namespace Balance

def Consistent (b : Balance) : Prop :=
  b.balance = b.counters.credit-b.counters.debit ∧
    b.inflightBalance = b.counters.inflightCredit-b.counters.inflightDebit

/-- The balance with an amount added to its counters, everything else kept. -/
structure Moved (b b' : Balance) (gain : Counters) : Prop where
  counters : b'.counters = b.counters+gain
  balanceID : b'.balanceID = b.balanceID
  currency : b'.currency = b.currency
  version : b'.version = b.version
  queued : b'.queuedDebitBalance = b.queuedDebitBalance
  consistent : b.Consistent → b'.Consistent

theorem moved_addDebit (b : Balance) (a : ℤ) (inflight : Bool) :
    b.Moved ((b.addDebit a inflight).computeBalance inflight)
      ((if inflight then Movement.hold else Movement.plain).debitSide a) := by
  cases inflight <;>
    refine ⟨by ext <;> simp [addDebit,computeBalance,Movement.debitSide],rfl,rfl,rfl,rfl,fun h => ?_⟩ <;>
    simp_all [Consistent,addDebit,computeBalance]

theorem moved_addCredit (b : Balance) (a : ℤ) (inflight : Bool) :
    b.Moved ((b.addCredit a inflight).computeBalance inflight)
      ((if inflight then Movement.hold else Movement.plain).creditSide a) := by
  cases inflight <;>
    refine ⟨by ext <;> simp [addCredit,computeBalance,Movement.creditSide],rfl,rfl,rfl,rfl,fun h => ?_⟩ <;>
    simp_all [Consistent,addCredit,computeBalance]

theorem moved_settleDebit (b : Balance) (a : ℤ) : b.Moved (b.settleDebit a) (Movement.commit.debitSide a) :=
  ⟨by ext <;> simp [settleDebit,computeBalance,Movement.debitSide,sub_eq_add_neg],rfl,rfl,rfl,rfl,fun _ => ⟨rfl,rfl⟩⟩

theorem moved_settleCredit (b : Balance) (a : ℤ) : b.Moved (b.settleCredit a) (Movement.commit.creditSide a) :=
  ⟨by ext <;> simp [settleCredit,computeBalance,Movement.creditSide,sub_eq_add_neg],rfl,rfl,rfl,rfl,fun _ => ⟨rfl,rfl⟩⟩

theorem moved_releaseDebit (b : Balance) (a : ℤ) : b.Moved (b.releaseDebit a) (Movement.void.debitSide a) :=
  ⟨by ext <;> simp [releaseDebit,computeBalance,Movement.debitSide,sub_eq_add_neg],rfl,rfl,rfl,rfl,fun h => ⟨h.1,rfl⟩⟩

theorem moved_releaseCredit (b : Balance) (a : ℤ) : b.Moved (b.releaseCredit a) (Movement.void.creditSide a) :=
  ⟨by ext <;> simp [releaseCredit,computeBalance,Movement.creditSide,sub_eq_add_neg],rfl,rfl,rfl,rfl,fun h => ⟨h.1,rfl⟩⟩

theorem checkSufficientInflight_ok {side : String} {held a : ℤ} (ha : 0 < a) (hheld : a ≤ held) :
    checkSufficientInflight side held (some a) = .ok a := by
  simp [checkSufficientInflight,not_le.mpr ha,not_lt.mpr hheld]

end Balance

namespace Transaction

theorem parseAmount_orOne {text : String} {precision : Float64} {a : ℤ} (h : parseAmount text precision = .ok a) :
    parseAmount text precision.orOne = .ok a ∧ 0 < a := by
  obtain ⟨_,hp,h⟩ := bind_ok h
  rw [parseAmount,validatePrecision_orOne hp,Float64.orOne_orOne]
  refine ⟨h,?_⟩
  split at h
  · cases h
  obtain ⟨-,h⟩ := ok_of_guard h
  simp only at h
  split at h
  · cases h
  · cases h
    omega

theorem validate_ok {t : Transaction} (h : t.validate = .ok ()) : t.validateMonetaryFields = .ok () ∧
    0 < t.resolvedAmount ∧ ∀ p, t.preciseAmount = some p → p = t.resolvedAmount := by
  obtain ⟨_,hfields,h⟩ := bind_ok h
  refine ⟨hfields,?_⟩
  cases hp : t.preciseAmount with
  | none =>
    rw [hp] at h
    obtain ⟨a,ha,-⟩ := bind_ok h
    obtain ⟨ha,hpos⟩ := parseAmount_orOne ha
    have hconvert : ({ t with precision := t.precision.orOne }).convertDecimalToPrecise = a := by
      have ha : parseAmount ({ t with precision := t.precision.orOne }).decimalAmount t.precision.orOne = .ok a := ha
      rw [convertDecimalToPrecise,ha]
    have hresolved : t.resolvedAmount = a := by
      rw [resolvedAmount,if_neg (by simp [hp]),hconvert]
    exact ⟨hresolved ▸ hpos,fun p hp => by cases hp⟩
  | some p =>
    rw [hp] at h
    have hpos : 0 < p := by
      by_contra hneg
      simp only [not_lt.mp hneg,if_true] at h
      cases h
    have hresolved : t.resolvedAmount = p := by simp [resolvedAmount,hp,hpos]
    rw [hresolved]
    exact ⟨hpos,fun q hq => (some.inj hq).symm⟩

end Transaction

theorem canProcessTransaction_iff {t : Transaction} {source : Balance} {a : ℤ} (ha : t.preciseAmount = some a)
    (hallow : t.allowOverdraft = false) (hlimit : t.overdraftLimit.positive = false) :
    canProcessTransaction t source = .ok () ↔ a ≤ availableBalance source := by
  unfold canProcessTransaction
  rw [hallow,ha]
  simp only [Bool.false_and,Bool.false_eq_true,if_false,getD_some]
  split <;> simp [*]

namespace Legs

variable {l : Legs}

theorem reservationError_eq_none : l.reservationError = none ↔
    ∃ a, l.transaction.preciseAmount = some a ∧ 0 < a ∧ a ≤ l.source.counters.inflightDebit ∧
      a ≤ l.destination.counters.inflightCredit := by
  rw [reservationError]
  cases l.transaction.preciseAmount with
  | none => simp
  | some a =>
    simp only [some.injEq,exists_eq_left']
    split
    · simp [not_lt.mpr ‹_›]
    all_goals
      simp
      omega

/-- What a successful application leaves behind. -/
structure Applied (l l' : Legs) (a : ℤ) : Prop where
  positive : 0 < a
  amount : l'.transaction.preciseAmount = some a
  kept : ∀ p, l.transaction.preciseAmount = some p → p = a
  transaction : l'.transaction = if l.transaction.status = .void then l.transaction else l.transaction.materialise a
  source : l.source.Moved l'.source (l.transaction.movement.debitSide a)
  destination : l.destination.Moved l'.destination (l.transaction.movement.creditSide a)
  covered : l.transaction.movement.settles = true →
    a ≤ l.source.counters.inflightDebit ∧ a ≤ l.destination.counters.inflightCredit
  valid : l.transaction.status ≠ .void → l.transaction.validateMonetaryFields = .ok ()
  funded : l.transaction.status ≠ .void → l.transaction.status ≠ .commit →
    canProcessTransaction (l.transaction.materialise a) l.source = .ok ()

/-- What one application can do: apply both legs, refuse and leave both balances alone, or, for a
commit whose major-unit amount is not a finite double, settle the debit leg and then fail. -/
inductive Outcome (l : Legs) : Option String × Legs → Prop
  | applied {l' : Legs} {a : ℤ} (h : Applied l l' a) : Outcome l (none,l')
  | refused (e : String) (t : Transaction) : Outcome l (some e,{ l with transaction := t })
  | halfCommitted {a : ℤ} (status : l.transaction.status = .commit)
      (valid : l.transaction.validateMonetaryFields = .ok ()) (reserved : l.reservationError = none)
      (overflow : l.transaction.majorAmount.isFinite = false) :
      Outcome l (some "commit inflight credit failed: inflight amount must be positive",
        { l with transaction := l.transaction.materialise a, source := l.source.settleDebit a })

theorem updateBalances_outcome (l : Legs) (hv : l.transaction.status ≠ .void) (hc : l.transaction.status ≠ .commit) :
    Outcome l l.updateBalances := by
  unfold updateBalances
  split
  · exact .refused _ _
  rename_i amount t hchecked
  obtain ⟨_,hvalid,hpair⟩ := bind_ok hchecked
  obtain ⟨hfields,hpos,hkept⟩ := validate_ok hvalid
  rw [applyPrecision_of_valid hfields] at hpair
  obtain ⟨rfl,rfl⟩ : l.transaction.resolvedAmount = amount ∧ l.transaction.materialise amount = t := by
    have := Except.ok.inj hpair
    simp only [Prod.mk.injEq] at this
    exact ⟨this.1,this.1 ▸ this.2⟩
  simp only
  split
  · exact .refused _ _
  rename_i hfunds
  have hmove : l.transaction.movement = if l.transaction.inflight then Movement.hold else Movement.plain := by
    rw [movement]
    split <;> simp_all
  refine .applied ⟨hpos,rfl,hkept,?_,?_,?_,?_,fun _ => hfields,fun _ _ => hfunds⟩
  · rw [if_neg hv]
    rfl
  · rw [hmove]
    exact moved_addDebit _ _ _
  · rw [hmove]
    exact moved_addCredit _ _ _
  · rw [hmove]
    cases l.transaction.inflight <;> exact fun h => absurd h (by decide)

theorem applyTransactionToBalances_plain (hv : l.transaction.status ≠ .void) (hc : l.transaction.status ≠ .commit) :
    l.applyTransactionToBalances = l.updateBalances := by
  unfold applyTransactionToBalances
  split
  · exact absurd ‹_› hc
  · exact absurd ‹_› hv
  · rfl

def posted (l : Legs) (a : ℤ) : Legs where
  transaction := l.transaction.materialise a
  source := (l.source.addDebit a l.transaction.inflight).computeBalance l.transaction.inflight
  destination := (l.destination.addCredit a l.transaction.inflight).computeBalance l.transaction.inflight

theorem updateBalances_none {l' : Legs} : l.updateBalances = (none,l') ↔ l.transaction.validate = .ok () ∧
    canProcessTransaction (l.transaction.materialise l.transaction.resolvedAmount) l.source = .ok () ∧
    l' = l.posted l.transaction.resolvedAmount := by
  cases hv : l.transaction.validate with
  | error e =>
    have hchecked : l.transaction.applyPrecisionChecked = .error e := by
      rw [applyPrecisionChecked,hv]
      rfl
    rw [updateBalances,hchecked]
    simp
  | ok =>
    have hchecked : l.transaction.applyPrecisionChecked = .ok (l.transaction.resolvedAmount,
        l.transaction.materialise l.transaction.resolvedAmount) := by
      rw [applyPrecisionChecked,hv,applyPrecision_of_valid (validate_ok hv).1]
      rfl
    have hsame : { l.transaction.materialise l.transaction.resolvedAmount with
        preciseAmount := some l.transaction.resolvedAmount } = l.transaction.materialise l.transaction.resolvedAmount := rfl
    rw [updateBalances,hchecked]
    simp only [hsame,true_and]
    cases hf : canProcessTransaction (l.transaction.materialise l.transaction.resolvedAmount) l.source with
    | error e => simp
    | ok =>
      simp only [Prod.mk.injEq,true_and]
      exact eq_comm

theorem voidLegs_of_covered {a : ℤ} (hamount : l.transaction.preciseAmount = some a) (hpos : 0 < a)
    (hdebit : a ≤ l.source.counters.inflightDebit) (hcredit : a ≤ l.destination.counters.inflightCredit) :
    l.voidLegs = (none,⟨l.transaction,l.source.releaseDebit a,l.destination.releaseCredit a⟩) := by
  have hsource : l.source.rollbackInflightDebit (some a) = .ok (l.source.releaseDebit a) := by
    rw [rollbackInflightDebit,checkSufficientInflightDebit,
      checkSufficientInflight_ok hpos hdebit]
    rfl
  have hdestination : l.destination.rollbackInflightCredit (some a) = .ok (l.destination.releaseCredit a) := by
    rw [rollbackInflightCredit,checkSufficientInflightCredit,
      checkSufficientInflight_ok hpos hcredit]
    rfl
  rw [voidLegs,hamount,hsource]
  simp only [hdestination]

theorem voidLegs_outcome (l : Legs) (hstatus : l.transaction.status = .void) (h : l.reservationError = none) :
    Outcome l l.voidLegs := by
  obtain ⟨a,hamount,hpos,hdebit,hcredit⟩ := reservationError_eq_none.mp h
  have hmove : l.transaction.movement = .void := by rw [movement,hstatus]
  rw [voidLegs_of_covered hamount hpos hdebit hcredit]
  refine .applied ⟨hpos,hamount,fun p hp => some.inj (hp.symm.trans hamount),?_,?_,?_,?_,
    fun hne => absurd hstatus hne,fun hne => absurd hstatus hne⟩
  · rw [if_pos hstatus]
  · rw [hmove]
    exact moved_releaseDebit _ _
  · rw [hmove]
    exact moved_releaseCredit _ _
  · exact fun _ => ⟨hdebit,hcredit⟩

/-- A commit with valid fields and a sufficient reservation: both legs settle, or, when the first
leg stored an infinite double, the second leg resolves to zero and refuses. -/
theorem commitLegs_of_valid {a : ℤ} (hvalid : l.transaction.validateMonetaryFields = .ok ())
    (hamount : l.transaction.preciseAmount = some a) (hpos : 0 < a) (hdebit : a ≤ l.source.counters.inflightDebit)
    (hcredit : a ≤ l.destination.counters.inflightCredit) :
    l.commitLegs = if l.transaction.majorAmount.isFinite then
        (none,⟨l.transaction.materialise a,l.source.settleDebit a,l.destination.settleCredit a⟩)
      else (some "commit inflight credit failed: inflight amount must be positive",
        { l with transaction := l.transaction.materialise a, source := l.source.settleDebit a }) := by
  have hresolved : l.transaction.resolvedAmount = a := by simp [resolvedAmount,hamount,hpos]
  have hfirst := applyPrecision_of_valid hvalid
  rw [hresolved] at hfirst
  have hsource : l.source.commitInflightDebit l.transaction =
      (.ok (l.source.settleDebit a),l.transaction.materialise a) := by
    rw [commitInflightDebit,hfirst]
    simp only [checkSufficientInflightDebit,checkSufficientInflight_ok hpos hdebit]
    rfl
  have hmajor : (l.transaction.materialise a).amount = l.transaction.majorAmount := by
    rw [materialise,← hamount]
    rfl
  have hagain := (materialised_materialise (validTerms_of_valid hvalid) _).valid_iff hpos.le
  rw [hmajor] at hagain
  rw [commitLegs,hsource]
  cases hfinite : l.transaction.majorAmount.isFinite with
  | true =>
    have hsecond := applyPrecision_of_valid (hagain.mpr hfinite)
    rw [resolvedAmount_materialise hpos,materialise_materialise] at hsecond
    have hdestination : l.destination.commitInflightCredit (l.transaction.materialise a) =
        (.ok (l.destination.settleCredit a),l.transaction.materialise a) := by
      rw [commitInflightCredit,hsecond]
      simp only [checkSufficientInflightCredit,checkSufficientInflight_ok hpos hcredit]
      rfl
    simp only [hdestination,if_true]
  | false =>
    cases hinvalid : (l.transaction.materialise a).validateMonetaryFields with
    | ok =>
      rw [hagain.mp hinvalid] at hfinite
      cases hfinite
    | error e =>
      have hdestination : l.destination.commitInflightCredit (l.transaction.materialise a) =
          (.error "inflight amount must be positive",l.transaction.materialise a) := by
        rw [commitInflightCredit,applyPrecision_of_invalid hinvalid]
        rfl
      simp only [hdestination,Bool.false_eq_true,if_false]
      rfl

theorem commitLegs_outcome (l : Legs) (hstatus : l.transaction.status = .commit) (h : l.reservationError = none) :
    Outcome l l.commitLegs := by
  obtain ⟨a,hamount,hpos,hdebit,hcredit⟩ := reservationError_eq_none.mp h
  have hmove : l.transaction.movement = .commit := by rw [movement,hstatus]
  cases hvalid : l.transaction.validateMonetaryFields with
  | error e =>
    have hsource : l.source.commitInflightDebit l.transaction =
        (.error "inflight amount must be positive",l.transaction) := by
      rw [commitInflightDebit,applyPrecision_of_invalid hvalid]
      rfl
    rw [commitLegs,hsource]
    exact .refused _ _
  | ok =>
    rw [commitLegs_of_valid hvalid hamount hpos hdebit hcredit]
    cases hfinite : l.transaction.majorAmount.isFinite with
    | true =>
      refine .applied ⟨hpos,rfl,fun p hp => some.inj (hp.symm.trans hamount),?_,?_,?_,?_,
        fun _ => hvalid,fun _ hne => absurd hstatus hne⟩
      · rw [if_neg (by rw [hstatus]; decide)]
      · rw [hmove]
        exact moved_settleDebit _ _
      · rw [hmove]
        exact moved_settleCredit _ _
      · exact fun _ => ⟨hdebit,hcredit⟩
    | false => exact .halfCommitted hstatus hvalid h hfinite

theorem applyTransactionToBalances_outcome (l : Legs) : Outcome l l.applyTransactionToBalances := by
  unfold applyTransactionToBalances
  split
  · rename_i hstatus
    cases h : l.reservationError with
    | some e => exact .refused e _
    | none => exact commitLegs_outcome l hstatus h
  · rename_i hstatus
    cases h : l.reservationError with
    | some e => exact .refused e _
    | none => exact voidLegs_outcome l hstatus h
  · rename_i hcommit hvoid
    exact updateBalances_outcome l hvoid hcommit

theorem applied_of_none {l' : Legs} (h : l.applyTransactionToBalances = (none,l')) : ∃ a, Applied l l' a := by
  have houtcome := l.applyTransactionToBalances_outcome
  rw [h] at houtcome
  cases houtcome with
  | applied happlied => exact ⟨_,happlied⟩

end Legs
end LedgerForge
