import LedgerForge.Library.Keyed
import LedgerForge.Library.Walks
import LedgerForge.Policy.Rules

/-! # Delegation and independent approval

Every key may have a parent key, fixed when the key is created. The ancestry of a key is read with a bound on its
depth. A decision on an admission needs an approver outside the delegation of its initiator.
-/

namespace LedgerForge.Policy

open Walks

structure ApiKey where
  apiKeyID : String
  parentAPIKeyID : Option String
deriving DecidableEq

structure Principal where
  apiKeyID : String
  master : Bool
  scopes : List String
deriving DecidableEq

def Principal.canApprove (p : Principal) : Bool := p.master || decide ("approvals:write" ∈ p.scopes)

inductive Decision
  | notRequired
  | pending
  | approved
  | rejected
deriving DecidableEq

structure PolicyAdmission where
  id : String
  apiKeyID : String
  identity : String
  version : ℤ
  day : ℤ
  fingerprint : String
  decision : Decision
  decidedBy : String
  legs : List PolicyLeg
deriving DecidableEq

def errDenied : String := "spending policy denied transaction"

def parentOf (keys : List ApiKey) (id : String) : Option String :=
  (Keyed.find ApiKey.apiKeyID keys id).bind ApiKey.parentAPIKeyID

def keyAncestry (keys : List ApiKey) (id : String) : Except String (List String) :=
  let ids := walk (parentOf keys) 64 id
  if 64 < ids.length then .error (denied "excessive delegation depth") else .ok ids

def createAPIKey (keys : List ApiKey) (k : ApiKey) : Except String (List ApiKey) :=
  if (Keyed.find ApiKey.apiKeyID keys k.apiKeyID).isSome then .error "duplicate key value violates unique constraint"
  else match k.parentAPIKeyID with
    | none => .ok (keys ++ [k])
    | some parent =>
      if parent = k.apiKeyID then .error "new row violates check constraint api_key_not_self_delegated"
      else if (Keyed.find ApiKey.apiKeyID keys parent).isNone then .error "insert violates foreign key constraint"
      else if 64 ≤ (walk (parentOf keys) 63 parent).length then .error "API key delegation exceeds maximum depth"
      else .ok (keys ++ [k])

def createAPIKeys (keys : List ApiKey) (later : List ApiKey) : List ApiKey :=
  later.foldl (fun ks k => (createAPIKey ks k).toOption.getD ks) keys

def independentApprover (keys : List ApiKey) (initiator : String) (p : Principal) : Except String Unit :=
  if p.master then .ok ()
  else if initiator = p.apiKeyID then .error errDenied
  else do
    let initiatorIDs ← keyAncestry keys initiator
    let approverIDs ← keyAncestry keys p.apiKeyID
    if initiator ∈ approverIDs then .error errDenied
    else if initiatorIDs.getLast? = approverIDs.getLast? ∧ approverIDs.length ≠ 1 then .error errDenied
    else .ok ()

/-- Approve or reject an admission. A decision once made can only be repeated. -/
def decidePolicyApproval (keys : List ApiKey) (a : PolicyAdmission) (p : Principal) (approve : Bool) :
    Except String PolicyAdmission :=
  if !p.canApprove then .error errDenied
  else do
    independentApprover keys a.apiKeyID p
    let decision := if approve then .approved else .rejected
    if a.decision = decision then .ok a
    else if a.decision ≠ .pending then .error "approval decision is final"
    else .ok { a with decision := decision, decidedBy := if p.master then "master" else p.apiKeyID }

def Delegated (keys : List ApiKey) : String → String → Prop := Follows (parentOf keys)

/-- The key without a parent above a key. -/
def RootOf (keys : List ApiKey) : String → String → Prop := Ends (parentOf keys)

variable {keys : List ApiKey}

theorem parentOf_create {k : ApiKey} {keys' : List ApiKey} (h : createAPIKey keys k = .ok keys') {x y : String}
    (hx : parentOf keys x = some y) : parentOf keys' x = some y := by
  have happend : keys' = keys ++ [k] := by
    obtain ⟨-,h⟩ := ok_of_guard h
    split at h
    · exact (Except.ok.inj h).symm
    · split_ifs at h
      exact (Except.ok.inj h).symm
  obtain ⟨key,hkey,hparent⟩ := Option.bind_eq_some_iff.mp hx
  rw [parentOf,happend,Keyed.find_append_of_some hkey]
  exact hparent

theorem parentOf_createAPIKeys (later : List ApiKey) {x y : String} (hx : parentOf keys x = some y) :
    parentOf (createAPIKeys keys later) x = some y := by
  induction later generalizing keys with
  | nil => exact hx
  | cons k later ih =>
    apply ih
    change parentOf ((createAPIKey keys k).toOption.getD keys) x = some y
    cases hc : createAPIKey keys k with
    | error err => exact hx
    | ok keys' => exact parentOf_create hc hx

theorem keyAncestry_ok {id : String} {ids : List String} (h : keyAncestry keys id = .ok ids) :
    ids = walk (parentOf keys) 64 id ∧ ids.length ≤ 64 := by
  obtain ⟨hlen,h⟩ := ok_of_guard h
  cases h
  exact ⟨rfl,not_lt.mp hlen⟩

theorem independentApprover_ok {initiator : String} {p : Principal} (hp : p.master = false)
    (h : independentApprover keys initiator p = .ok ()) : p.apiKeyID ≠ initiator ∧
      ¬ Delegated keys p.apiKeyID initiator ∧
      ∃ r, RootOf keys p.apiKeyID r ∧ (RootOf keys initiator r → parentOf keys p.apiKeyID = none) := by
  rw [independentApprover,if_neg (Bool.not_eq_true _ ▸ hp)] at h
  obtain ⟨hne,h⟩ := ok_of_guard h
  obtain ⟨initiatorIDs,hinitiator,h⟩ := bind_ok h
  obtain ⟨approverIDs,happrover,h⟩ := bind_ok h
  obtain ⟨rfl,hbound⟩ := keyAncestry_ok hinitiator
  obtain ⟨rfl,hbound'⟩ := keyAncestry_ok happrover
  split_ifs at h with hmem hroot
  refine ⟨Ne.symm hne,fun hdelegated => hmem (mem_of_reaches hbound' hdelegated.to_reflTransGen),_,ends_getLast hbound',
    fun hsame => ?_⟩
  by_contra hnone
  apply hroot
  refine ⟨?_,fun hone => hnone (length_walk_eq_one.mp hone)⟩
  rw [List.getLast?_eq_some_getLast (walk_ne_nil _ _),List.getLast?_eq_some_getLast (walk_ne_nil _ _),
    (ends_getLast hbound).unique hsame]

theorem decide_ok {a a' : PolicyAdmission} {p : Principal} {approve : Bool}
    (h : decidePolicyApproval keys a p approve = .ok a') : independentApprover keys a.apiKeyID p = .ok () := by
  obtain ⟨-,h⟩ := ok_of_guard h
  obtain ⟨_,hindependent,-⟩ := bind_ok h
  exact hindependent

/-- A key other than the master that decides an admission is not its initiator, not delegated by the initiator, and
is in another tree or the root of the initiator's tree. The initiator, its descendants, siblings and
delegated ancestors are refused, also after later keys. -/
theorem approver_independent (keys later : List ApiKey) (a : PolicyAdmission) (p : Principal) (approve : Bool)
    (hp : p.master = false) :
    (∀ a', decidePolicyApproval keys a p approve = .ok a' → p.apiKeyID ≠ a.apiKeyID ∧
      ¬ Delegated keys p.apiKeyID a.apiKeyID ∧
      ((∀ r, RootOf keys p.apiKeyID r → ¬ RootOf keys a.apiKeyID r) ∨
        parentOf keys p.apiKeyID = none ∧ RootOf keys a.apiKeyID p.apiKeyID)) ∧
    (p.apiKeyID = a.apiKeyID ∨ Delegated keys p.apiKeyID a.apiKeyID ∨
        (∃ parent, parentOf keys p.apiKeyID = some parent ∧ parentOf keys a.apiKeyID = some parent) ∨
        (Delegated keys a.apiKeyID p.apiKeyID ∧ ∃ parent, parentOf keys p.apiKeyID = some parent) →
      ∃ err, decidePolicyApproval (createAPIKeys keys later) a p approve = .error err) := by
  constructor
  · intro a' h
    obtain ⟨hne,hdelegated,r,hr,hsame⟩ := independentApprover_ok hp (decide_ok h)
    refine ⟨hne,hdelegated,?_⟩
    by_cases hroot : RootOf keys a.apiKeyID r
    · have hnone := hsame hroot
      obtain rfl := hr.unique ⟨.refl,hnone⟩
      exact .inr ⟨hnone,hroot⟩
    · left
      intro r' hr' hri
      exact hroot (hr'.unique hr ▸ hri)
  · intro hrelated
    have hmono : ∀ x y, parentOf keys x = some y → parentOf (createAPIKeys keys later) x = some y := fun x y =>
      parentOf_createAPIKeys later
    cases hd : decidePolicyApproval (createAPIKeys keys later) a p approve with
    | error err => exact ⟨err,rfl⟩
    | ok a' =>
      exfalso
      obtain ⟨hne,hdelegated,r,hr,hsame⟩ := independentApprover_ok hp (decide_ok hd)
      have hdelegatedRoot : ∀ {parent}, parentOf keys p.apiKeyID = some parent →
          ¬ RootOf (createAPIKeys keys later) a.apiKeyID r := fun hparent hroot => by
        have hnone := hsame hroot
        rw [hmono _ _ hparent] at hnone
        cases hnone
      rcases hrelated with hself | hbelow | ⟨parent,hparent,hsibling⟩ | ⟨habove,parent,hparent⟩
      · exact hne hself
      · exact hdelegated (Relation.TransGen.mono hmono _ _ hbelow)
      · have hshared := hr.of_leads (hmono _ _ hparent)
        exact hdelegatedRoot hparent (Follows.ends (.single (hmono _ _ hsibling)) hshared)
      · exact hdelegatedRoot hparent (Follows.ends (Relation.TransGen.mono hmono _ _ habove) hr)

def agentKeys : List ApiKey :=
  createAPIKeys [] [⟨"root",none⟩,⟨"team",some "root"⟩,⟨"agent",some "team"⟩,⟨"peer",some "team"⟩,⟨"helper",some "agent"⟩,
    ⟨"reviewer",none⟩]

def agentAdmission : PolicyAdmission := ⟨"adm_1","agent","x",1,0,"",.pending,"",[]⟩

def approver (id : String) : Principal := ⟨id,false,["approvals:write"]⟩

theorem reviewer_independent :
    (decidePolicyApproval agentKeys agentAdmission (approver "reviewer") true =
        .ok { agentAdmission with decision := .approved, decidedBy := "reviewer" } ∧
      (approver "reviewer").master = false) ∧
    (∀ a', decidePolicyApproval agentKeys agentAdmission (approver "reviewer") true = .ok a' →
      (approver "reviewer").apiKeyID ≠ agentAdmission.apiKeyID ∧
      ¬ Delegated agentKeys (approver "reviewer").apiKeyID agentAdmission.apiKeyID ∧
      ((∀ r, RootOf agentKeys (approver "reviewer").apiKeyID r → ¬ RootOf agentKeys agentAdmission.apiKeyID r) ∨
        parentOf agentKeys (approver "reviewer").apiKeyID = none ∧
          RootOf agentKeys agentAdmission.apiKeyID (approver "reviewer").apiKeyID)) ∧
    (let p := approver "reviewer"
     p.apiKeyID = agentAdmission.apiKeyID ∨ Delegated agentKeys p.apiKeyID agentAdmission.apiKeyID ∨
        (∃ parent, parentOf agentKeys p.apiKeyID = some parent ∧ parentOf agentKeys agentAdmission.apiKeyID = some parent) ∨
        (Delegated agentKeys agentAdmission.apiKeyID p.apiKeyID ∧ ∃ parent, parentOf agentKeys p.apiKeyID = some parent) →
      ∃ err, decidePolicyApproval (createAPIKeys agentKeys []) agentAdmission p true = .error err) :=
  ⟨by decide +kernel,approver_independent agentKeys [] agentAdmission (approver "reviewer") true rfl⟩

example : ∀ id ∈ ["agent","helper","peer","team"],
    decidePolicyApproval agentKeys agentAdmission (approver id) false = .error errDenied := by decide +kernel

end LedgerForge.Policy
