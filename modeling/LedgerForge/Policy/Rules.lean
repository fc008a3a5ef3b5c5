import LedgerForge.Library.Results
import LedgerForge.Numeric.Float64

/-! # Spending policies

A policy lists spending rules by currency and precision, and the ledgers and balances a key may use. An empty
allowlist does not restrict.
-/

namespace LedgerForge.Policy

structure SpendingRule where
  currency : String
  precision : Float64
  maxTransaction : String
  dailyLimit : String
  approvalAbove : String
deriving DecidableEq

structure KeyPolicy where
  denyAll : Bool
  inheritedFrom : List String
  apiKeyID : String
  version : ℤ
  rules : List SpendingRule
  ledgerIDs : List String
  balanceIDs : List String
deriving DecidableEq

structure PolicyLeg where
  transactionID : String
  reference : String
  source : String
  destination : String
  sourceLedger : String
  destinationLedger : String
  currency : String
  precision : Float64
  amount : String
deriving DecidableEq

/-- The three limits of a rule; an empty text is no limit. -/
inductive Limit
  | maxTransaction
  | dailyLimit
  | approvalAbove
deriving DecidableEq

def SpendingRule.limit (r : SpendingRule) : Limit → String
  | .maxTransaction => r.maxTransaction
  | .dailyLimit => r.dailyLimit
  | .approvalAbove => r.approvalAbove

/-- A natural number printed without sign and leading zeros. Any other text differs from the number read from it. -/
def integer (s : String) : Option ℕ :=
  let n := s.toList.foldl (fun n c => 10*n+(c.toNat - '0'.toNat)) 0
  if toString n = s then some n else none

def ruleKey (currency : String) (precision : Float64) : String := currency ++ "/" ++ precision.fixed0

def SpendingRule.key (r : SpendingRule) : String := ruleKey r.currency r.precision

def allowed (list : List String) (id : String) : Bool := decide (list = [] ∨ id ∈ list)

def validateLimit (s : String) : Except String Unit :=
  if s = "" ∨ (integer s).isSome then .ok () else .error "policy amounts must be canonical nonnegative integers"

/-- The rules in order, with the keys seen so far. Upper-casing a currency is given by `upper`. -/
def validateRules (upper : String → String) (seen : List String) : List SpendingRule → Except String Unit
  | [] => .ok ()
  | r :: rest =>
    if r.currency = "" ∨ r.currency ≠ upper r.currency ∨ ∀ n ∈ r.precision.toInt?, n < 1 then
      .error "policy requires currency and integer precision"
    else if r.key ∈ seen then .error "duplicate policy currency rule"
    else do
      Results.checkAll validateLimit [r.maxTransaction,r.dailyLimit,r.approvalAbove]
      validateRules upper (r.key :: seen) rest

def validate (upper : String → String) (p : KeyPolicy) : Except String Unit :=
  if p.rules = [] then .error "policy requires at least one currency rule" else validateRules upper [] p.rules

/-- The smaller limit. A text that is no number is a missing pointer. -/
def minimum (a b : String) : Except String String :=
  if a = "" then .ok b else if b = "" then .ok a
  else match integer a, integer b with
    | some x, some y => .ok (if x ≤ y then a else b)
    | _, _ => .error "invalid memory address or nil pointer dereference"

def intersectIDs (a b : List String) : List String × Bool :=
  if a = [] then (b,false) else if b = [] then (a,false)
  else (a.filter (allowed b),(a.filter (allowed b)).isEmpty)

def SpendingRule.meet (a b : SpendingRule) : Except String SpendingRule := do
  let maxTransaction ← minimum a.maxTransaction b.maxTransaction
  let dailyLimit ← minimum a.dailyLimit b.dailyLimit
  let approvalAbove ← minimum a.approvalAbove b.approvalAbove
  .ok { a with maxTransaction := maxTransaction, dailyLimit := dailyLimit, approvalAbove := approvalAbove }

/-- One rule against the rules of another policy. -/
def meetRule (a : SpendingRule) : List SpendingRule → Except String (List SpendingRule)
  | [] => .ok []
  | b :: bs =>
    if a.key ≠ b.key then meetRule a bs
    else do
      let a ← a.meet b
      let rest ← meetRule a bs
      .ok (a :: rest)

def meetRules (bs : List SpendingRule) : List SpendingRule → Except String (List SpendingRule)
  | [] => .ok []
  | a :: rest => do
    let first ← meetRule a bs
    let rest ← meetRules bs rest
    .ok (first ++ rest)

namespace KeyPolicy

def record (key : String) (result p : KeyPolicy) : KeyPolicy :=
  { result with version := result.version+p.version,
                inheritedFrom := result.inheritedFrom ++ (if p.apiKeyID = key then [] else [p.apiKeyID]),
                denyAll := result.denyAll || p.denyAll }

def restrict (key : String) (result p : KeyPolicy) : Except String KeyPolicy := do
  let rules ← meetRules p.rules result.rules
  let (ledgerIDs,noLedger) := intersectIDs result.ledgerIDs p.ledgerIDs
  let (balanceIDs,noBalance) := intersectIDs result.balanceIDs p.balanceIDs
  .ok { result.record key p with rules := rules, ledgerIDs := ledgerIDs, balanceIDs := balanceIDs,
                                 denyAll := (result.record key p).denyAll || noLedger || noBalance }

end KeyPolicy

/-- The effective policy of a key, or none without policies. -/
def intersect (key : String) : List KeyPolicy → Except String (Option KeyPolicy)
  | [] => .ok none
  | first :: rest => do
    let start := KeyPolicy.record key { first with apiKeyID := key, version := 0, inheritedFrom := [] } first
    let result ← rest.foldlM (KeyPolicy.restrict key) start
    .ok (some (if result.rules = [] then { result with denyAll := true } else result))

/-- A policy permits a leg: it has a rule for the currency and allows both balances and both ledgers. -/
def KeyPolicy.permits (p : KeyPolicy) (leg : PolicyLeg) : Bool :=
  !p.denyAll && p.rules.any (fun r => r.key = ruleKey leg.currency leg.precision) &&
    allowed p.balanceIDs leg.source && allowed p.balanceIDs leg.destination &&
    allowed p.ledgerIDs leg.sourceLedger && allowed p.ledgerIDs leg.destinationLedger

def permitted (effective : Option KeyPolicy) (leg : PolicyLeg) : Bool := effective.all fun p => p.permits leg

def denied (reason : String) : String := "spending policy denied transaction: " ++ reason

def checkAllowlist (child parent : List String) : Except String Unit :=
  if parent = [] then .ok ()
  else if child = [] then .error (denied "child allowlist must narrow its ancestors")
  else Results.checkAll (fun id => if allowed parent id then .ok ()
    else .error (denied "child allowlist exceeds its ancestors")) child

def checkLimit (child parent : String) : Except String Unit :=
  if parent = "" then .ok ()
  else if child = "" then .error (denied "child limit exceeds its ancestors")
  else do
    let smaller ← minimum child parent
    if smaller = child then .ok () else .error (denied "child limit exceeds its ancestors")

def checkRule (parent : List SpendingRule) (c : SpendingRule) : Except String Unit :=
  match parent.find? fun p => p.key = c.key with
  | none => .error (denied "child currency exceeds its ancestors")
  | some p => do
    checkLimit c.maxTransaction p.maxTransaction
    checkLimit c.dailyLimit p.dailyLimit
    checkLimit c.approvalAbove p.approvalAbove

def validateNarrowing (child : KeyPolicy) : Option KeyPolicy → Except String Unit
  | none => .ok ()
  | some parent =>
    if child.denyAll then .ok ()
    else if parent.denyAll then .error (denied "ancestor denies all spending")
    else do
      checkAllowlist child.ledgerIDs parent.ledgerIDs
      checkAllowlist child.balanceIDs parent.balanceIDs
      Results.checkAll (checkRule parent.rules) child.rules

end LedgerForge.Policy
