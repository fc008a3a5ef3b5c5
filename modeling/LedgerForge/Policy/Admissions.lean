import LedgerForge.Library.Counters
import LedgerForge.Policy.Delegation
import LedgerForge.Storage.Tables

/-! # Admissions, bindings and budgets

An admission charges the daily budget of every policy along the delegation chain and binds each leg by its
reference and its transaction identifier. Two triggers watch the transactions table: one checks a new row against
its binding, the other gives capacity back when a row ends a leg.
-/

namespace LedgerForge.Policy

open Walks Counters PolicyLeg

structure StoredPolicy where
  apiKeyID : String
  document : KeyPolicy
  version : ℤ
  enabled : Bool
deriving DecidableEq

/-- One budget: a key, a currency and precision, and a day. -/
structure BudgetKey where
  apiKeyID : String
  currency : String
  precision : Float64
  day : ℤ
deriving DecidableEq

structure AdmissionBudget where
  admissionID : String
  key : BudgetKey
  amount : ℤ
deriving DecidableEq

structure PolicyBinding where
  reference : String
  transactionID : String
  admissionID : String
  source : String
  destination : String
  currency : String
  precision : Float64
  amount : ℤ
  released : ℤ
deriving DecidableEq

structure PolicyDatabase where
  ledger : Database
  keys : List ApiKey
  policies : List StoredPolicy
  usage : List (BudgetKey × ℤ)
  admissions : List PolicyAdmission
  budgets : List AdmissionBudget
  bindings : List PolicyBinding

/-- The policy tables are empty when they are installed next to a ledger. -/
def PolicyDatabase.install (ledger : Database) : PolicyDatabase := ⟨ledger,[],[],[],[],[],[]⟩

/-- An unordered query limited to one row: some row when there is one. -/
structure Pick where
  pick : List PolicyBinding → Option PolicyBinding
  mem : ∀ l b, pick l = some b → b ∈ l
  found : ∀ l, l ≠ [] → pick l ≠ none

/-- What the model is not about: upper-casing, the digest of the legs, and the order of unordered rows. -/
structure Environment where
  upper : String → String
  digest : List PolicyLeg → String
  pick : Pick

def errIdentityConflict : String := "policy idempotency identity already has different transaction details"
def errApprovalRequired : String := "transaction requires an independent approval decision"
def uniqueViolation : String := "duplicate key value violates unique constraint"

namespace PolicyDatabase

variable (db : PolicyDatabase)

/-- The enabled policies of the given keys, in order. -/
def ancestorPolicies (ids : List String) : List KeyPolicy :=
  ids.filterMap fun id => (db.policies.find? fun s => s.apiKeyID = id && s.enabled).map fun s =>
    { s.document with apiKeyID := id, version := s.version }

end PolicyDatabase

/-- A delegated manager cannot touch the policies above it. -/
def checkPolicyManagementTarget (keys : List ApiKey) (p : Principal) (target : String) : Except String Unit :=
  if p.master ∨ p.apiKeyID = "" then .ok ()
  else do
    let ancestors ← keyAncestry keys p.apiKeyID
    if target ∈ ancestors.tail then .error (denied "delegated keys cannot manage ancestor policies") else .ok ()

namespace PolicyDatabase

variable (db : PolicyDatabase)

def storePolicy (p : KeyPolicy) : PolicyDatabase :=
  { db with
    policies :=
      if db.policies.any fun s => s.apiKeyID = p.apiKeyID then
        db.policies.map fun s => if s.apiKeyID = p.apiKeyID then ⟨s.apiKeyID,p,s.version+1,true⟩ else s
      else db.policies ++ [⟨p.apiKeyID,p,1,true⟩] }

def putKeyPolicy (upper : String → String) (manager : Principal) (p : KeyPolicy) : Except String PolicyDatabase :=
  if p.apiKeyID = "" then .error "api_key_id is required"
  else do
    validate upper p
    let ids ← keyAncestry db.keys p.apiKeyID
    checkPolicyManagementTarget db.keys manager p.apiKeyID
    let inherited ← intersect p.apiKeyID (db.ancestorPolicies ids.tail)
    validateNarrowing p inherited
    .ok (db.storePolicy { p with inheritedFrom := [] })

def deleteKeyPolicy (manager : Principal) (id : String) : Except String PolicyDatabase := do
  let _ ← keyAncestry db.keys id
  checkPolicyManagementTarget db.keys manager id
  .ok { db with
    policies := db.policies.map fun s => if s.apiKeyID = id then { s with version := s.version+1, enabled := false } else s }

end PolicyDatabase

def PolicyLeg.key (leg : PolicyLeg) : String := ruleKey leg.currency leg.precision

/-- The rule for a key; without one, an empty rule. -/
def KeyPolicy.ruleFor (p : KeyPolicy) (key : String) : SpendingRule :=
  (p.rules.find? fun r => r.key = key).getD ⟨"",Float64.ofInt 0,"","",""⟩

def checkLeg (p : KeyPolicy) (leg : PolicyLeg) : Except String Unit :=
  if (integer leg.amount).isNone then .error "policy amounts must be canonical nonnegative integers"
  else if ¬ p.rules.any fun r => r.key = leg.key then .error (denied "currency or precision is not allowed")
  else if ¬ (allowed p.balanceIDs leg.source ∧ allowed p.balanceIDs leg.destination ∧
      allowed p.ledgerIDs leg.sourceLedger ∧ allowed p.ledgerIDs leg.destinationLedger) then
    .error (denied "balance or ledger is not allowed")
  else .ok ()

def PolicyLeg.value (leg : PolicyLeg) : ℤ := ((integer leg.amount).getD 0 : ℕ)

def total (legs : List PolicyLeg) (key : String) : ℤ := ((legs.filter fun leg => leg.key = key).map value).sum

def legKeys (legs : List PolicyLeg) : List String := (legs.map key).dedup.insertionSort (· ≤ ·)

def exceeds (limit : String) (amount : ℤ) : Bool := limit ≠ "" && (integer limit).all fun n => decide ((n : ℤ) < amount)

def checkMaxTransaction (p : KeyPolicy) (legs : List PolicyLeg) (key : String) : Except String Unit :=
  if exceeds (p.ruleFor key).maxTransaction (total legs key) then .error (denied "aggregate exceeds max_transaction") else .ok ()

def initialDecision (p : KeyPolicy) (legs : List PolicyLeg) : Decision :=
  if (legKeys legs).any fun key => exceeds (p.ruleFor key).approvalAbove (total legs key) then .pending else .notRequired

def KeyPolicy.budget (p : KeyPolicy) (rule : SpendingRule) (day : ℤ) : BudgetKey := ⟨p.apiKeyID,rule.currency,rule.precision,day⟩

def charge (legs : List PolicyLeg) (day : ℤ) (usage : List (BudgetKey × ℤ)) (c : KeyPolicy × String) :
    Except String (List (BudgetKey × ℤ)) :=
  let rule := c.1.ruleFor c.2
  let budget := c.1.budget rule day
  let current := value usage budget+total legs c.2
  if exceeds rule.dailyLimit current then .error (denied "shared ancestor daily_limit exhausted")
  else .ok (set (ensure usage budget) budget current)

def charges (policies : List KeyPolicy) (legs : List PolicyLeg) : List (KeyPolicy × String) :=
  (policies.insertionSort fun p q => p.apiKeyID ≤ q.apiKeyID).flatMap fun p => (legKeys legs).map fun key => (p,key)

namespace PolicyDatabase

def insertAdmission (db : PolicyDatabase) (a : PolicyAdmission) : Except String PolicyDatabase :=
  if db.admissions.any fun x => x.id = a.id || (x.apiKeyID = a.apiKeyID && x.identity = a.identity) then .error uniqueViolation
  else .ok { db with admissions := db.admissions ++ [a] }

def insertBudget (db : PolicyDatabase) (b : AdmissionBudget) : Except String PolicyDatabase :=
  if db.budgets.any fun x => x.admissionID = b.admissionID && x.key.apiKeyID = b.key.apiKeyID &&
      x.key.currency = b.key.currency && x.key.precision = b.key.precision then .error uniqueViolation
  else .ok { db with budgets := db.budgets ++ [b] }

def insertBinding (db : PolicyDatabase) (b : PolicyBinding) : Except String PolicyDatabase :=
  if db.bindings.any fun x => x.reference = b.reference || x.transactionID = b.transactionID then
    .error ("policy reference is already admitted: " ++ uniqueViolation)
  else .ok { db with bindings := db.bindings ++ [b] }

end PolicyDatabase

/-- The legs without their generated identifiers. -/
def canonicalLegs (legs : List PolicyLeg) : List PolicyLeg := legs.map fun leg => { leg with transactionID := "" }

def PolicyLeg.binding (admissionID : String) (leg : PolicyLeg) : PolicyBinding where
  reference := leg.reference
  transactionID := leg.transactionID
  admissionID := admissionID
  source := leg.source
  destination := leg.destination
  currency := leg.currency
  precision := leg.precision
  amount := leg.value
  released := 0

/-- A request for admission, with the identifier and the day it will get. -/
structure AdmissionRequest where
  admissionID : String
  day : ℤ
  key : String
  identity : String
  legs : List PolicyLeg
deriving DecidableEq

def policyFingerprint (env : Environment) (legs : List PolicyLeg) : String := env.digest (canonicalLegs legs)

namespace PolicyDatabase

variable (env : Environment) (db : PolicyDatabase)

/-- A repeated request finds its admission again. -/
def repeated (r : AdmissionRequest) (a : PolicyAdmission) : Except String PolicyAdmission :=
  if policyFingerprint env r.legs ≠ a.fingerprint then .error errIdentityConflict
  else if a.decision = .rejected then .error errDenied
  else if db.bindings.any fun b => b.admissionID = a.id && 0 < b.released then .error errDenied
  else .ok a

/-- The admission of new legs under the effective policy `p`. -/
def admitLegs (r : AdmissionRequest) (policies : List KeyPolicy) (p : KeyPolicy) :
    Except String (PolicyDatabase × PolicyAdmission) := do
  Results.checkAll (checkLeg p) r.legs
  if r.legs = [] then .error "policy admission requires transaction legs"
  else do
    Results.checkAll (checkMaxTransaction p r.legs) (legKeys r.legs)
    let usage ← (charges policies r.legs).foldlM (charge r.legs r.day) db.usage
    let a : PolicyAdmission :=
      ⟨r.admissionID,r.key,r.identity,p.version,r.day,policyFingerprint env r.legs,initialDecision p r.legs,"",r.legs⟩
    let admitted ← PolicyDatabase.insertAdmission { db with usage := usage } a
    let budgeted ← (charges policies r.legs).foldlM (fun db c => db.insertBudget
      ⟨r.admissionID,c.1.budget (p.ruleFor c.2) r.day,total r.legs c.2⟩) admitted
    let bound ← (r.legs.map (binding r.admissionID)).foldlM insertBinding budgeted
    .ok (bound,a)

def admitPolicy (r : AdmissionRequest) : Except String (PolicyDatabase × Option PolicyAdmission) := do
  let ids ← keyAncestry db.keys r.key
  match db.admissions.find? fun a => a.apiKeyID = r.key && a.identity = r.identity with
  | some a => do
    let a ← db.repeated env r a
    .ok (db,some a)
  | none => do
    match ← intersect r.key (db.ancestorPolicies ids) with
    | none => .ok (db,none)
    | some p =>
      if p.denyAll then .error errDenied
      else do
        let (admitted,a) ← db.admitLegs env r (db.ancestorPolicies ids) p
        .ok (admitted,some a)

def admitPolicyTransactions (r : AdmissionRequest) : Except String (PolicyDatabase × Option PolicyAdmission) :=
  if r.identity = "" then .error "policy admission requires an idempotency reference"
  else do
    Results.checkAll (fun leg => validatePrecision leg.precision) r.legs
    db.admitPolicy env r

end PolicyDatabase

def PolicyBinding.names (b : PolicyBinding) (reference : String) : Bool :=
  reference = b.reference || reference = b.reference ++ "_q"

namespace PolicyDatabase

variable (db : PolicyDatabase)

def parentRow (id : String) : Option String :=
  (db.ledger.findTransaction id).bind fun r =>
    if r.parentTransaction = "" ∨ r.parentTransaction = r.transactionID then none else some r.parentTransaction

def bindingByID (id : String) : Option PolicyBinding :=
  (walk db.parentRow 16 id).findSome? fun x => Keyed.find PolicyBinding.transactionID db.bindings x

def admissionOf (b : PolicyBinding) : Option PolicyAdmission := Keyed.find PolicyAdmission.id db.admissions b.admissionID

def settlementBinding (new : Row) : Option PolicyBinding :=
  if new.parentTransaction = "" then none
  else (db.ledger.findTransaction new.parentTransaction).bind fun parent =>
    if parent.status = .inflight ∨ (parent.status = .queued ∧ parent.queueAction = .commit) then
      db.bindingByID new.parentTransaction
    else none

end PolicyDatabase

def sameDetails (original : Bool) (b : PolicyBinding) (new : Row) : Bool :=
  new.source = b.source && new.destination = b.destination && new.currency = b.currency &&
    b.precision.toInt? = some new.precision && new.preciseAmount.any fun amount =>
      0 ≤ amount && (!original || amount = b.amount) && (original || amount ≤ b.amount)

def Row.ends (r : Row) : Bool := r.status = .void || r.status = .rejected

/-- The checks of the insert trigger on a row that belongs to a binding. -/
def checkPosting (original : Bool) (b : PolicyBinding) (decision : Option Decision) (new : Row) : Except String Unit :=
  if !sameDetails original b new then .error "policy admission transaction details do not match"
  else if !Row.ends new ∧ 0 < b.released ∧ (original ∨ b.amount-b.released < new.preciseAmount.getD 0) then
    .error "policy reservation was released"
  else if !Row.ends new ∧ decision = some .rejected then .error "policy approval was rejected"
  else if !Row.ends new ∧ (new.status = .applied ∨ new.queueAction = .commit) ∧ decision ≠ some .approved ∧
      decision ≠ some .notRequired ∧ decision ≠ none then
    .error "policy transaction requires independent approval"
  else if new.status = .applied ∧ original ∧ decision = some .approved then
    .error "approved policy transaction must settle its hold"
  else .ok ()

namespace PolicyDatabase

variable (env : Environment) (db : PolicyDatabase)

def enforcePolicyPosting (new : Row) : Except String Unit :=
  match env.pick.pick (db.bindings.filter fun b => b.names new.reference) with
  | some b => checkPosting true b ((db.admissionOf b).map PolicyAdmission.decision) new
  | none =>
    match db.settlementBinding new with
    | some b => checkPosting false b ((db.admissionOf b).map PolicyAdmission.decision) new
    | none => .ok ()

def inherits (b : PolicyBinding) (family : List Row) (t : Row) : Bool :=
  (family.any fun f => t.parentTransaction = f.transactionID) && t.source = b.source && t.destination = b.destination &&
    t.currency = b.currency && b.precision.toInt? = some t.precision &&
    !db.bindings.any fun other => other.transactionID = t.transactionID && other.reference ≠ b.reference

def family (b : PolicyBinding) : ℕ → List Row
  | 0 => db.ledger.transactions.filter fun t => b.names t.reference
  | n+1 => db.ledger.transactions.filter fun t => b.names t.reference || db.inherits b (family b n) t

/-- What the rows of a leg leave unused: all of it once the leg is rejected, and what was voided otherwise. -/
def policyReleasableCapacity (b : PolicyBinding) : ℤ :=
  let rows := db.family b db.ledger.transactions.length
  if rows.any fun t => t.status = .rejected && b.names t.reference then b.amount
  else min b.amount ((rows.filter fun t => t.status = .void).map fun t => t.preciseAmount.getD 0).sum

def releaseBudget (delta : ℤ) (usage : List (BudgetKey × ℤ)) (b : AdmissionBudget) : Except String (List (BudgetKey × ℤ)) :=
  if (Keyed.find Prod.fst usage b.key).isNone then .ok usage
  else if value usage b.key-delta < 0 then .error "new row violates check constraint policy_usage_used_check"
  else .ok (set usage b.key (value usage b.key-delta))

def releasePolicyBudgets (admissionID currency : String) (precision : Float64) (delta : ℤ) : Except String PolicyDatabase := do
  let usage ← ((db.budgets.filter fun x => x.admissionID = admissionID ∧ x.key.currency = currency ∧
    x.key.precision = precision).insertionSort fun x y => x.key.apiKeyID ≤ y.key.apiKeyID).foldlM (releaseBudget delta) db.usage
  .ok { db with usage := usage }

def setReleased (reference : String) (released : ℤ) : PolicyDatabase :=
  { db with bindings := db.bindings.map fun b => if b.reference = reference then { b with released := released } else b }

def rejectExhausted (admissionID : String) : PolicyDatabase :=
  { db with
    admissions := db.admissions.map fun a =>
      if a.id = admissionID ∧ a.decision = .pending ∧
          ¬ db.bindings.any (fun b => b.admissionID = a.id && b.released < b.amount) then
        { a with decision := .rejected, decidedBy := "system:void-or-failure" }
      else a }

def releaseUpTo (b : PolicyBinding) (unused : ℤ) : Except String PolicyDatabase := do
  let released ← db.releasePolicyBudgets b.admissionID b.currency b.precision (unused-b.released)
  .ok (released.setReleased b.reference unused)

def releaseExcess (b : PolicyBinding) : Except String PolicyDatabase :=
  if 0 < db.policyReleasableCapacity b-b.released then db.releaseUpTo b (db.policyReleasableCapacity b) else .ok db

def releaseTerminalPolicyReservation (new : Row) : Except String PolicyDatabase :=
  if !Row.ends new then .ok db
  else match db.bindingByID new.transactionID with
    | none => .ok db
    | some b => do
      let released ← db.releaseExcess b
      .ok (released.rejectExhausted b.admissionID)

def releasePolicyLeg (id : String) : Except String PolicyDatabase :=
  match db.bindingByID id with
  | none => .ok db
  | some b =>
    if db.policyReleasableCapacity b < 0 then
      .error "invalid persisted policy release: policy amounts must be canonical nonnegative integers"
    else if db.policyReleasableCapacity b-b.released ≤ 0 then .ok db
    else do
      let released ← db.releaseExcess b
      .ok (released.rejectExhausted b.admissionID)

def insertTransaction (new : Row) : Except String PolicyDatabase := do
  db.enforcePolicyPosting env new
  let ledger ← db.ledger.insertRow new
  releaseTerminalPolicyReservation { db with ledger := ledger } new

def verifyPolicyLeg (new : Row) : Except String (Option PolicyAdmission) :=
  match env.pick.pick (db.bindings.filter fun b => b.names new.reference) with
  | none => .ok none
  | some b =>
    if new.preciseAmount ≠ some b.amount ∨ b.source ≠ new.source ∨ b.destination ≠ new.destination ∨
        b.currency ≠ new.currency ∨ b.precision.toInt? ≠ some new.precision ∨ b.released ≠ 0 then .error errIdentityConflict
    else match db.admissionOf b with
      | none => .error "sql: no rows in result set"
      | some a => if a.decision = .rejected then .error errDenied else .ok (some a)

def verifyPolicyExecution (marked : Bool) (new : Row) : Except String Unit :=
  if !marked then .ok ()
  else do
    match ← db.verifyPolicyLeg env new with
    | none => .error errDenied
    | some _ => .ok ()

def checkPolicyCommit (id : String) : Except String Unit :=
  match db.bindingByID id with
  | none => .ok ()
  | some b =>
    match db.admissionOf b with
    | none => .error "sql: no rows in result set"
    | some a => if a.decision = .approved ∨ a.decision = .notRequired then .ok () else .error errApprovalRequired

def decideAdmission (id : String) (p : Principal) (approve : Bool) : Except String PolicyDatabase :=
  match Keyed.find PolicyAdmission.id db.admissions id with
  | none => .error "sql: no rows in result set"
  | some a => do
    let a ← decidePolicyApproval db.keys a p approve
    .ok { db with admissions := db.admissions.map fun x => if x.id = id then a else x }

end PolicyDatabase

/-- What happens to the database. A posting writes a row that settles no hold: a direct posting, a queued intent, its
execution, or a rejection. A settlement commits the hold that is its parent, directly or queued, or executes the queued
commit that is its parent. -/
inductive PolicyEvent
  | createBalance (id currency : String)
  | createKey (k : ApiKey)
  | putPolicy (manager : Principal) (p : KeyPolicy)
  | deletePolicy (manager : Principal) (id : String)
  | admission (r : AdmissionRequest)
  | decision (id : String) (p : Principal) (approve : Bool)
  | posting (marked : Bool) (new : Row)
  | settlement (new : Row)
  | voiding (new : Row)
  | release (id : String)

namespace PolicyDatabase

variable (env : Environment)

def settles (db : PolicyDatabase) (new : Row) : Bool :=
  (db.ledger.findTransaction new.parentTransaction).any fun parent =>
    parent.status = .inflight || (parent.status = .queued && parent.queueAction = .commit)

def attempt (db : PolicyDatabase) : PolicyEvent → Except String PolicyDatabase
  | .createBalance id currency => .ok { db with ledger := db.ledger.createBalance id currency }
  | .createKey k => do
    let keys ← createAPIKey db.keys k
    .ok { db with keys := keys }
  | .putPolicy manager p => db.putKeyPolicy env.upper manager p
  | .deletePolicy manager id => db.deleteKeyPolicy manager id
  | .admission r => do
    let (db,_) ← db.admitPolicyTransactions env r
    .ok db
  | .decision id p approve => db.decideAdmission id p approve
  | .posting marked new =>
    if db.settles new ∧ !Row.ends new then .error "not a posting"
    else do
      db.verifyPolicyExecution env marked new
      db.insertTransaction env new
  | .settlement new => do
    db.checkPolicyCommit new.parentTransaction
    db.insertTransaction env new
  | .voiding new => if new.status = .void then db.insertTransaction env new else .error "not a void"
  | .release id => db.releasePolicyLeg id

/-- A failed operation changes nothing. -/
def step (db : PolicyDatabase) (e : PolicyEvent) : PolicyDatabase := (db.attempt env e).toOption.getD db

def run (db : PolicyDatabase) (events : List PolicyEvent) : PolicyDatabase := events.foldl (step env) db

end PolicyDatabase

end LedgerForge.Policy
