import LedgerForge.Policy.Delegation

/-! # Scopes of delegated keys

A key creates other keys with scopes that its own scopes cover. Requests are admitted by the resource and action of a
scope, policy management and approval by the exact text of one.
-/

namespace LedgerForge.Policy

open List

def methodToAction (method : String) : String :=
  if method = "GET" ∨ method = "HEAD" then "read"
  else if method = "POST" ∨ method = "PUT" ∨ method = "PATCH" then "write"
  else if method = "DELETE" then "delete"
  else ""

/-- Resource and action of a scope, both empty unless the text has exactly one colon. -/
def parseScope (scope : String) : String × String :=
  match scope.toList.splitOn ':' with
  | [resource,action] => (String.ofList resource,String.ofList action)
  | _ => ("","")

def hasPermission (scopes : List String) (resource method : String) : Bool :=
  let action := methodToAction method
  if action = "" then false
  else scopes.any fun scope =>
    let (scopeResource,scopeAction) := parseScope scope
    if scopeResource = "*" then scopeAction = "*" || scopeAction = action
    else scopeResource = resource && (scopeAction = "*" || scopeAction = action)

def scopeCovers (grantedScope requestedScope : String) : Bool :=
  let (grantedResource,grantedAction) := parseScope grantedScope
  let (requestedResource,requestedAction) := parseScope requestedScope
  if grantedResource = "" ∨ grantedAction = "" ∨ requestedResource = "" ∨ requestedAction = "" then false
  else if grantedResource = "*" then grantedAction = "*" || grantedAction = requestedAction
  else if grantedResource ≠ requestedResource then false
  else grantedAction = "*" || grantedAction = requestedAction

def canGrantScopes (callerScopes requestedScopes : List String) : Bool :=
  requestedScopes.all fun requested => callerScopes.any fun granted => scopeCovers granted requested

def Principal.canManagePolicies (p : Principal) : Bool := p.master || decide ("policies:write" ∈ p.scopes)

/-- A stored key; times are counted from the zero time. -/
structure ScopedKey extends ApiKey where
  name : String
  ownerID : String
  scopes : List String
  expiresAt : ℤ
  isRevoked : Bool
deriving DecidableEq

def ScopedKey.isValid (k : ScopedKey) (now : ℤ) : Bool := !k.isRevoked && now < k.expiresAt

def ScopedKey.principal (k : ScopedKey) : Principal := ⟨k.apiKeyID,false,k.scopes⟩

/-- A request body; the scopes may be missing. -/
structure CreateAPIKeyRequest where
  name : String
  scopes : Option (List String)
  owner : String
  expiresAt : ℤ
deriving DecidableEq

/-- Who sends a request: the master key, a key of the table, or nobody when authentication is switched off. -/
inductive Caller
  | master
  | key (id : String)
  | anonymous
deriving DecidableEq

def authenticate (keys : List ScopedKey) (now : ℤ) (method : String) : Caller → Except String (Bool × Option ScopedKey)
  | .master => .ok (true,none)
  | .anonymous => .ok (false,none)
  | .key id =>
    match Keyed.find (fun k : ScopedKey => k.apiKeyID) keys id with
    | none => .error "Invalid API key"
    | some k =>
      if !k.isValid now then .error "API key is expired or revoked"
      else if !hasPermission k.scopes "api-keys" method then
        .error ("Insufficient permissions for api-keys:" ++ methodToAction method)
      else .ok (false,some k)

def errMissingAPIKeyPrincipal : String := "authenticated API key principal missing"

def errAPIKeyScopeEscalation : String := "cannot grant scopes broader than caller"

def errAPIKeyExpiryEscalation : String := "cannot grant an expiry later than caller"

def resolveAPIKeyOwner (isMaster : Bool) (principal : Option ScopedKey) (requestedOwner : String) (ownerRequired : Bool) :
    Except String String :=
  if isMaster then if ownerRequired && requestedOwner = "" then .error "owner is required" else .ok requestedOwner
  else match principal with
    | none => .error errMissingAPIKeyPrincipal
    | some k =>
      if requestedOwner ≠ "" ∧ requestedOwner ≠ k.ownerID then .error "cannot manage API keys for another owner"
      else .ok k.ownerID

def validateGrantedScopes (isMaster : Bool) (principal : Option ScopedKey) (requestedScopes : List String) :
    Except String Unit :=
  if isMaster then .ok ()
  else match principal with
    | none => .error errMissingAPIKeyPrincipal
    | some k =>
      if requestedScopes.any fun scope => '*' ∈ scope.toList then .error errAPIKeyScopeEscalation
      else if !canGrantScopes k.scopes requestedScopes then .error errAPIKeyScopeEscalation
      else .ok ()

def validateGrantedExpiry (isMaster : Bool) (principal : Option ScopedKey) (expiresAt : ℤ) : Except String Unit :=
  if isMaster then .ok ()
  else match principal with
    | none => .error errMissingAPIKeyPrincipal
    | some k => if expiresAt = 0 ∨ k.expiresAt < expiresAt then .error errAPIKeyExpiryEscalation else .ok ()

def CreateAPIKeyRequest.bind (req : CreateAPIKeyRequest) : Except String (List String) :=
  match req.scopes with
  | none => .error "Scopes is required"
  | some scopes =>
    if req.name = "" then .error "Name is required"
    else if req.owner = "" then .error "Owner is required"
    else if req.expiresAt = 0 then .error "ExpiresAt is required"
    else .ok scopes

def storeAPIKey (keys : List ScopedKey) (k : ScopedKey) : Except String (List ScopedKey) :=
  (createAPIKey (keys.map ScopedKey.toApiKey) k.toApiKey).map fun _ => keys ++ [k]

def createScopedKey (keys : List ScopedKey) (now : ℤ) (caller : Caller) (req : CreateAPIKeyRequest) (newID : String) :
    Except String (List ScopedKey) := do
  let (isMaster,principal) ← authenticate keys now "POST" caller
  let scopes ← req.bind
  let ownerID ← resolveAPIKeyOwner isMaster principal req.owner true
  validateGrantedScopes isMaster principal scopes
  validateGrantedExpiry isMaster principal req.expiresAt
  storeAPIKey keys ⟨⟨newID,principal.map fun k => k.apiKeyID⟩,req.name,ownerID,scopes,req.expiresAt,false⟩

def revokeScopedKey (keys : List ScopedKey) (now : ℤ) (caller : Caller) (id owner : String) : Except String (List ScopedKey) := do
  let (isMaster,principal) ← authenticate keys now "DELETE" caller
  let ownerID ← resolveAPIKeyOwner isMaster principal (if isMaster then owner else "") isMaster
  if keys.any fun k => k.apiKeyID = id && k.ownerID = ownerID then
    .ok (keys.map fun k => if k.apiKeyID = id ∧ k.ownerID = ownerID then { k with isRevoked := true } else k)
  else .error "api key not found"

/-- Requests to the keys. -/
inductive KeyRequest
  | create (now : ℤ) (caller : Caller) (req : CreateAPIKeyRequest) (newID : String)
  | revoke (now : ℤ) (caller : Caller) (id owner : String)

def keyStep (keys : List ScopedKey) : KeyRequest → List ScopedKey
  | .create now caller req newID => (createScopedKey keys now caller req newID).toOption.getD keys
  | .revoke now caller id owner => (revokeScopedKey keys now caller id owner).toOption.getD keys

def keyRun (requests : List KeyRequest) : List ScopedKey := requests.foldl keyStep []

theorem mem_of_parseScope {scope : String} {c : Char}
    (h : c ∈ (parseScope scope).1.toList ∨ c ∈ (parseScope scope).2.toList) : c ∈ scope.toList := by
  unfold parseScope at h
  split at h
  · next resource action hsplit =>
    have hjoin : [':'].intercalate (scope.toList.splitOn ':') = scope.toList := intercalate_splitOn _
    rw [hsplit] at hjoin
    rw [← hjoin]
    simp only [String.toList_ofList] at h
    simp [List.intercalate]
    tauto
  · simp at h

theorem parseScope_concrete {scope : String} (h : '*' ∉ scope.toList) :
    (parseScope scope).1 ≠ "*" ∧ (parseScope scope).2 ≠ "*" := by
  constructor <;> intro hstar <;> apply h <;> apply mem_of_parseScope <;> simp [hstar]

def Admits (scope resource action : String) : Prop :=
  ((parseScope scope).1 = "*" ∨ (parseScope scope).1 = resource) ∧
    ((parseScope scope).2 = "*" ∨ (parseScope scope).2 = action)

variable {resource : String}

theorem hasPermission_iff {scopes : List String} {method : String} : hasPermission scopes resource method = true ↔
    methodToAction method ≠ "" ∧ ∃ scope ∈ scopes, Admits scope resource (methodToAction method) := by
  unfold hasPermission Admits
  by_cases hnone : methodToAction method = ""
  · simp [hnone]
  simp only [hnone,if_false,any_eq_true,ne_eq,not_false_eq_true,true_and]
  refine exists_congr fun scope => and_congr_right fun _ => ?_
  by_cases hall : (parseScope scope).1 = "*" <;> simp [hall]

theorem scopeCovers_spec {granted requested : String} (h : scopeCovers granted requested = true) :
    Admits granted (parseScope requested).1 (parseScope requested).2 := by
  unfold scopeCovers at h
  simp only at h
  split_ifs at h with hempty hall hne
  · exact ⟨.inl hall,by simpa using h⟩
  · exact ⟨.inr (not_not.mp hne),by simpa using h⟩

theorem Admits.covered {granted requested action : String} (hconcrete : '*' ∉ requested.toList)
    (hcovers : scopeCovers granted requested = true) (h : Admits requested resource action) :
    Admits granted resource action := by
  obtain ⟨hr,ha⟩ := parseScope_concrete hconcrete
  have hresource := h.1.resolve_left hr
  have haction := h.2.resolve_left ha
  rw [← hresource,← haction]
  exact scopeCovers_spec hcovers

/-- What the creation of a key below another one checks. -/
structure Granted (k p : ScopedKey) : Prop where
  concrete : ∀ scope ∈ k.scopes, '*' ∉ scope.toList
  covered : ∀ scope ∈ k.scopes, ∃ granted ∈ p.scopes, scopeCovers granted scope = true
  expiry : k.expiresAt ≤ p.expiresAt
  owner : k.ownerID = p.ownerID

variable {k p : ScopedKey}

theorem Granted.hasPermission (h : Granted k p) {method : String}
    (hk : Policy.hasPermission k.scopes resource method = true) : Policy.hasPermission p.scopes resource method = true := by
  rw [hasPermission_iff] at hk ⊢
  obtain ⟨hmethod,scope,hscope,hadmits⟩ := hk
  obtain ⟨granted,hgranted,hcovers⟩ := h.covered scope hscope
  exact ⟨hmethod,granted,hgranted,hadmits.covered (h.concrete scope hscope) hcovers⟩

/-- Every power of the first key is a power of the second one; it expires no later and has the same owner. -/
structure Dominated (k p : ScopedKey) : Prop where
  permissions : ∀ resource method, hasPermission k.scopes resource method = true → hasPermission p.scopes resource method = true
  policies : k.principal.canManagePolicies = true → p.principal.canManagePolicies = true
  approvals : k.principal.canApprove = true → p.principal.canApprove = true
  expiry : k.expiresAt ≤ p.expiresAt
  owner : k.ownerID = p.ownerID

theorem Dominated.trans {q : ScopedKey} (h : Dominated k p) (h' : Dominated p q) : Dominated k q where
  permissions resource method hk := h'.permissions resource method (h.permissions resource method hk)
  policies hk := h'.policies (h.policies hk)
  approvals hk := h'.approvals (h.approvals hk)
  expiry := h.expiry.trans h'.expiry
  owner := h.owner.trans h'.owner

/-- The two scopes that are asked for by their text were granted by a key that has them by their text. -/
def Explicit (k p : ScopedKey) : Prop :=
  ∀ scope ∈ ["policies:write","approvals:write"], scope ∈ k.scopes → scope ∈ p.scopes
deriving Decidable

theorem Granted.dominated_iff (h : Granted k p) : Dominated k p ↔ Explicit k p := by
  have hexplicit : Explicit k p ↔ (k.principal.canManagePolicies = true → p.principal.canManagePolicies = true) ∧
      (k.principal.canApprove = true → p.principal.canApprove = true) := by
    simp only [Principal.canManagePolicies,Principal.canApprove,Bool.or_eq_true,decide_eq_true_eq]
    simp [Explicit,ScopedKey.principal]
  rw [hexplicit]
  constructor
  · intro hd
    exact ⟨hd.policies,hd.approvals⟩
  · rintro ⟨hpolicies,happrovals⟩
    exact ⟨fun _ _ => h.hasPermission,hpolicies,happrovals,h.expiry,h.owner⟩

/-- Every key below another one was granted by it, and the parents of keys are keys. -/
structure WellGranted (keys : List ScopedKey) : Prop where
  unique : (keys.map fun k => k.apiKeyID).Nodup
  rooted : ∀ k ∈ keys, ∀ id, k.parentAPIKeyID = some id → ∃ p ∈ keys, p.apiKeyID = id
  granted : ∀ k ∈ keys, ∀ p ∈ keys, k.parentAPIKeyID = some p.apiKeyID → Granted k p

theorem createAPIKey_ok {keys keys' : List ApiKey} {k : ApiKey} (h : createAPIKey keys k = .ok keys') :
    ∀ x ∈ keys, x.apiKeyID ≠ k.apiKeyID := by
  unfold createAPIKey at h
  split at h
  · cases h
  next hnew =>
  rw [Option.not_isSome_iff_eq_none] at hnew
  exact Keyed.find_eq_none.mp hnew

theorem validateGrantedScopes_ok {scopes : List String}
    (h : validateGrantedScopes false (some p) scopes = .ok ()) : (∀ scope ∈ scopes, '*' ∉ scope.toList) ∧
      ∀ scope ∈ scopes, ∃ granted ∈ p.scopes, scopeCovers granted scope = true := by
  simp only [validateGrantedScopes,Bool.false_eq_true,if_false] at h
  split_ifs at h with hstar hgrant
  constructor
  · simpa using hstar
  · simpa [canGrantScopes] using hgrant

variable {keys : List ScopedKey}

theorem createScopedKey_ok {keys' : List ScopedKey} {now : ℤ} {caller : Caller} {req : CreateAPIKeyRequest}
    {newID : String} (h : createScopedKey keys now caller req newID = .ok keys') : ∃ k : ScopedKey, keys' = keys ++ [k] ∧
      (∀ x ∈ keys, x.apiKeyID ≠ k.apiKeyID) ∧
      (k.parentAPIKeyID = none ∨ ∃ p ∈ keys, k.parentAPIKeyID = some p.apiKeyID ∧ Granted k p) := by
  obtain ⟨⟨isMaster,principal⟩,hauth,h⟩ := bind_ok h
  obtain ⟨scopes,-,h⟩ := bind_ok h
  obtain ⟨ownerID,howner,h⟩ := bind_ok h
  obtain ⟨_,hscopes,h⟩ := bind_ok h
  obtain ⟨_,hexpiry,h⟩ := bind_ok h
  obtain ⟨_,hstored,rfl⟩ := map_ok h
  refine ⟨_,rfl,fun x hx => createAPIKey_ok hstored _ (mem_map_of_mem hx),?_⟩
  cases caller with
  | master =>
    cases hauth
    exact .inl rfl
  | anonymous =>
    cases hauth
    cases howner
  | key id =>
    simp only [authenticate] at hauth
    split at hauth
    · cases hauth
    next p hp =>
    split_ifs at hauth
    cases hauth
    refine .inr ⟨p,Keyed.find_mem hp,rfl,?_⟩
    obtain ⟨hconcrete,hcovered⟩ := validateGrantedScopes_ok hscopes
    simp only [validateGrantedExpiry,Bool.false_eq_true,if_false] at hexpiry
    simp only [resolveAPIKeyOwner,Bool.false_eq_true,if_false] at howner
    split_ifs at hexpiry howner with hlate hother
    cases howner
    exact ⟨hconcrete,hcovered,not_lt.mp (not_or.mp hlate).2,rfl⟩

theorem WellGranted.create (h : WellGranted keys)
    (hnew : ∀ x ∈ keys, x.apiKeyID ≠ k.apiKeyID)
    (hk : k.parentAPIKeyID = none ∨ ∃ p ∈ keys, k.parentAPIKeyID = some p.apiKeyID ∧ Granted k p) :
    WellGranted (keys ++ [k]) := by
  refine ⟨Keyed.nodup_concat h.unique hnew,fun x hx id hid => ?_,fun x hx p hp hparent => ?_⟩
  · rcases mem_append.mp hx with hx | hx
    · obtain ⟨p,hp,hpid⟩ := h.rooted x hx id hid
      exact ⟨p,mem_append_left _ hp,hpid⟩
    obtain rfl := mem_singleton.mp hx
    obtain ⟨p,hp,hparent,-⟩ := hk.resolve_left (by simp [hid])
    exact ⟨p,mem_append_left _ hp,Option.some.inj (hparent.symm.trans hid)⟩
  · rcases mem_append.mp hx with hx | hx
    · -- the parent of an old key is old
      obtain ⟨q,hq,hqid⟩ := h.rooted x hx _ hparent
      rcases mem_append.mp hp with hp | hp
      · exact h.granted x hx p hp hparent
      · obtain rfl := mem_singleton.mp hp
        exact absurd hqid (hnew q hq)
    · obtain rfl := mem_singleton.mp hx
      obtain ⟨q,hq,hqparent,hgranted⟩ := hk.resolve_left (by simp [hparent])
      have hsame : q.apiKeyID = p.apiKeyID := Option.some.inj (hqparent.symm.trans hparent)
      rcases mem_append.mp hp with hp | hp
      · obtain rfl := inj_on_of_nodup_map h.unique hq hp hsame
        exact hgranted
      · obtain rfl := mem_singleton.mp hp
        exact absurd hsame (hnew q hq)

theorem WellGranted.revoke (h : WellGranted keys) (revoked : ScopedKey → Prop) [DecidablePred revoked] :
    WellGranted (keys.map fun k => if revoked k then { k with isRevoked := true } else k) := by
  have hsame : ∀ k : ScopedKey, (if revoked k then { k with isRevoked := true } else k).apiKeyID = k.apiKeyID ∧
      (if revoked k then { k with isRevoked := true } else k).parentAPIKeyID = k.parentAPIKeyID := by
    intro k
    split <;> exact ⟨rfl,rfl⟩
  have hgranted : ∀ k p : ScopedKey, Granted k p → Granted (if revoked k then { k with isRevoked := true } else k)
      (if revoked p then { p with isRevoked := true } else p) := by
    intro k p hg
    split <;> split <;> exact ⟨hg.concrete,hg.covered,hg.expiry,hg.owner⟩
  refine ⟨?_,fun x hx id hid => ?_,fun x hx p hp hparent => ?_⟩
  · rw [map_map]
    exact (map_congr_left fun k _ => (hsame k).1) ▸ h.unique
  · obtain ⟨k,hk,rfl⟩ := mem_map.mp hx
    obtain ⟨p,hp,hpid⟩ := h.rooted k hk id ((hsame k).2 ▸ hid)
    exact ⟨_,mem_map_of_mem hp,(hsame p).1.trans hpid⟩
  · obtain ⟨k,hk,rfl⟩ := mem_map.mp hx
    obtain ⟨q,hq,rfl⟩ := mem_map.mp hp
    rw [(hsame k).2,(hsame q).1] at hparent
    exact hgranted k q (h.granted k hk q hq hparent)

theorem WellGranted.step (h : WellGranted keys) (request : KeyRequest) :
    WellGranted (keyStep keys request) := by
  cases request with
  | create now caller req newID =>
    rw [keyStep]
    cases hc : createScopedKey keys now caller req newID with
    | error message => exact h
    | ok keys' =>
      obtain ⟨k,rfl,hnew,hk⟩ := createScopedKey_ok hc
      exact h.create hnew hk
  | revoke now caller id owner =>
    rw [keyStep]
    cases hr : revokeScopedKey keys now caller id owner with
    | error message => exact h
    | ok keys' =>
      obtain ⟨⟨isMaster,principal⟩,-,hr⟩ := bind_ok hr
      obtain ⟨ownerID,-,hr⟩ := bind_ok hr
      split at hr
      · cases hr
        exact h.revoke fun k => k.apiKeyID = id ∧ k.ownerID = ownerID
      · cases hr

theorem wellGranted_run (requests : List KeyRequest) : WellGranted (keyRun requests) := by
  have hfold : ∀ keys, WellGranted keys → WellGranted (requests.foldl keyStep keys) := by
    induction requests with
    | nil => exact fun _ h => h
    | cons request requests ih => exact fun keys h => ih _ (h.step request)
  exact hfold [] ⟨nodup_nil,by simp,by simp⟩

def CreatedBy (keys : List ScopedKey) (k p : ScopedKey) : Prop :=
  k ∈ keys ∧ p ∈ keys ∧ k.parentAPIKeyID = some p.apiKeyID

/-- After any requests a key is dominated by the key it was created with exactly when the scopes that are asked for by
their text were granted explicitly; in that case it is dominated by every key above it. Requests, expiry and owner are
bounded in any case. -/
theorem delegated_authority (requests : List KeyRequest) :
    (∀ k p, CreatedBy (keyRun requests) k p → (Dominated k p ↔ Explicit k p) ∧
      (∀ resource method, hasPermission k.scopes resource method = true → hasPermission p.scopes resource method = true) ∧
      k.expiresAt ≤ p.expiresAt ∧ k.ownerID = p.ownerID) ∧
    ∀ k a, Relation.TransGen (fun k p => CreatedBy (keyRun requests) k p ∧ Explicit k p) k a → Dominated k a := by
  have hgranted : ∀ k p, CreatedBy (keyRun requests) k p → Granted k p :=
    fun k p h => (wellGranted_run requests).granted k h.1 p h.2.1 h.2.2
  constructor
  · intro k p h
    have hg := hgranted k p h
    exact ⟨hg.dominated_iff,fun _ _ => hg.hasPermission,hg.expiry,hg.owner⟩
  · intro k a h
    induction h with
    | single hlink => exact (hgranted _ _ hlink.1).dominated_iff.mpr hlink.2
    | tail _ hlink ih => exact ih.trans ((hgranted _ _ hlink.1).dominated_iff.mpr hlink.2)

/-- The master creates a key with these scopes, which creates one that may manage policies and approve. -/
def escalation (scopes : List String) : List KeyRequest :=
  [.create 1 .master ⟨"root",some scopes,"o",9⟩ "a",
    .create 2 (.key "a") ⟨"child",some ["policies:write","approvals:write"],"o",9⟩ "b"]

/-- A creator that has the two scopes dominates what it creates. -/
theorem explicit_grant_dominated : ∃ p k, keyRun (escalation ["api-keys:write","policies:write","approvals:write"]) = [p,k] ∧
    k.principal.canApprove = true ∧ Dominated k p := by
  refine ⟨⟨⟨"a",none⟩,"root","o",["api-keys:write","policies:write","approvals:write"],9,false⟩,
    ⟨⟨"b",some "a"⟩,"child","o",["policies:write","approvals:write"],9,false⟩,by decide,by decide,?_⟩
  refine (((delegated_authority (escalation ["api-keys:write","policies:write","approvals:write"])).1 _ _ ?_).1).mpr
    (by decide)
  exact ⟨by decide,by decide,rfl⟩

/-- A wildcard covers the two scopes without having them. -/
theorem wildcard_grants_policy_scopes : ∃ p k, keyRun (escalation ["*:*"]) = [p,k] ∧ k.parentAPIKeyID = some p.apiKeyID ∧
    p.parentAPIKeyID = none ∧ k.principal.canManagePolicies = true ∧ k.principal.canApprove = true ∧
    p.principal.canManagePolicies = false ∧ p.principal.canApprove = false := by
  refine ⟨⟨⟨"a",none⟩,"root","o",["*:*"],9,false⟩,⟨⟨"b",some "a"⟩,"child","o",["policies:write","approvals:write"],9,false⟩,?_⟩
  decide +kernel

end LedgerForge.Policy
