import Mathlib.Tactic

/-! # Routes and the resources their requests are checked for

The scopes of a key are compared with a resource that is read off the first and the last segment of the path, whatever route
the path matches. Parameters of a route stand for any segment that is not empty.
-/

namespace LedgerForge.Policy

open List Option

structure Route where
  method : String
  pattern : String
  resource : String
deriving DecidableEq

/-- The registered routes, with the resource that the handlers of a group work on. -/
def routes : List Route :=
  [("ledgers",[("POST","/ledgers"),("GET","/ledgers/:id"),("GET","/ledgers"),("POST","/ledgers/filter"),("PUT","/ledgers/:id")]),
    ("balances",[("POST","/balances"),("GET","/balances"),("POST","/balances/filter"),("GET","/balances/:id"),
      ("GET","/balances/indicator/:indicator/currency/:currency"),("GET","/balances/:id/at"),("POST","/balances-snapshots"),
      ("PUT","/balances/:id/identity"),("GET","/balances/:id/lineage")]),
    ("balance-monitors",[("POST","/balance-monitors"),("GET","/balance-monitors/:id"),("GET","/balance-monitors"),
      ("GET","/balance-monitors/balances/:balance_id"),("PUT","/balance-monitors/:id"),("DELETE","/balance-monitors/:id")]),
    ("transactions",[("POST","/transactions"),("POST","/transactions/bulk"),("POST","/transactions/filter"),
      ("POST","/refund-transaction/:id"),("GET","/transactions"),("GET","/transactions/:id"),
      ("GET","/transactions/reference/:reference"),("PUT","/transactions/inflight/:txID"),
      ("POST","/transactions/inflight/bulk/void"),("POST","/transactions/inflight/bulk/commit"),
      ("GET","/transactions/:id/lineage"),("POST","/transactions/recover")]),
    ("identities",[("POST","/identities"),("GET","/identities/:id"),("PUT","/identities/:id"),("GET","/identities"),
      ("DELETE","/identities/:id"),("POST","/identities/filter"),("GET","/identities/:id/tokenized-fields"),
      ("POST","/identities/:id/tokenize/:field"),("GET","/identities/:id/detokenize/:field"),
      ("POST","/identities/:id/tokenize"),("POST","/identities/:id/detokenize")]),
    ("accounts",[("POST","/accounts"),("GET","/accounts/:id"),("GET","/accounts"),("POST","/accounts/filter"),
      ("GET","/mocked-account")]),
    ("backup",[("GET","/backup"),("GET","/backup-s3")]),
    ("search",[("POST","/search/:collection"),("POST","/multi-search"),("POST","/search/reindex"),("GET","/search/reindex")]),
    ("reconciliation",[("POST","/reconciliation/upload"),("POST","/reconciliation/matching-rules"),
      ("PUT","/reconciliation/matching-rules/:id"),("DELETE","/reconciliation/matching-rules/:id"),
      ("POST","/reconciliation/start"),("POST","/reconciliation/start-instant"),("GET","/reconciliation/:id")]),
    ("metadata",[("POST","/:entity-id/metadata")]),
    ("hooks",[("POST","/hooks"),("PUT","/hooks/:id"),("GET","/hooks/:id"),("GET","/hooks"),("DELETE","/hooks/:id")]),
    ("api-keys",[("POST","/api-keys"),("GET","/api-keys"),("DELETE","/api-keys/:id")]),
    ("policies",[("POST","/policies/:id"),("PUT","/policies/:id"),("GET","/policies/:id"),("DELETE","/policies/:id"),
      ("GET","/policies/effective")]),
    ("approvals",[("GET","/approvals"),("POST","/approvals/:id/approve"),("POST","/approvals/:id/reject")])].flatMap
    fun group => group.2.map fun route => ⟨route.1,route.2,group.1⟩

def pathToResource : List (String × String) :=
  [("ledgers","ledgers"),("balances","balances"),("balances-snapshots","balances"),("accounts","accounts"),
    ("identities","identities"),("transactions","transactions"),("balance-monitors","balance-monitors"),("hooks","hooks"),
    ("api-keys","api-keys"),("policies","policies"),("approvals","approvals"),("search","search"),
    ("reconciliation","reconciliation"),("metadata","metadata"),("backup","backup"),("backup-s3","backup")]

/-- The segments of a path behind its leading slash. -/
def pathParts (path : List Char) : List String :=
  ((match path with | '/' :: rest => rest | _ => path).splitOn '/').map String.ofList

/-- First segments that decide whatever follows. -/
def fixedResource (first : String) : Option String :=
  if first = "mocked-account" then some "accounts"
  else if first = "multi-search" then some "search"
  else if first = "refund-transaction" then some "transactions"
  else none

def getResourceFromPath (path : List Char) : String :=
  match pathParts path with
  | [] => ""
  | first :: rest => match fixedResource first with
    | some resource => resource
    | none => if rest.getLastD first = "metadata" then "metadata" else (pathToResource.lookup first).getD ""

def Route.segments (r : Route) : List String := pathParts r.pattern.toList

def isParameter (segment : String) : Bool := segment.toList.head? = some ':'

def Fits (segment value : String) : Prop := if isParameter segment then value ≠ "" else value = segment
deriving Decidable

/-- A request that the router hands to the handler of a route. -/
structure RoutedRequest where
  route : Route
  registered : route ∈ routes
  path : List Char
  fits : Forall₂ Fits route.segments (pathParts path)

namespace RoutedRequest

variable (r : RoutedRequest)

/-- The last segment is `metadata` on the metadata route alone, and there the first one is none of the fixed ones. -/
def Clear : Prop :=
  if (fixedResource ((pathParts r.path).headD "")).isSome then r.route.resource ≠ "metadata"
  else (pathParts r.path).getLastD "" = "metadata" ↔ r.route.resource = "metadata"

end RoutedRequest

/-- The metadata route begins with a parameter, any other route with a name of its resource. -/
def Route.regular (r : Route) : Bool :=
  match r.segments with
  | [] => false
  | first :: rest =>
    if r.resource = "metadata" then rest = ["metadata"]
    else !isParameter first && (fixedResource first).or (pathToResource.lookup first) = some r.resource

theorem routes_regular : routes.all Route.regular = true := by decide +kernel

theorem fixedResource_ne_metadata {first resource : String} (h : fixedResource first = some resource) : resource ≠ "metadata" := by
  unfold fixedResource at h
  split_ifs at h <;> cases h <;> decide

theorem checked_resource_iff (r : RoutedRequest) : getResourceFromPath r.path = r.route.resource ↔ r.Clear := by
  have hregular := all_eq_true.mp routes_regular r.route r.registered
  have hfits := r.fits
  unfold Route.regular at hregular
  unfold getResourceFromPath RoutedRequest.Clear
  cases hsegments : r.route.segments with
  | nil => simp [hsegments] at hregular
  | cons first rest =>
    rw [hsegments] at hregular hfits
    obtain ⟨value,values,hfirst,hrest,hparts⟩ := forall₂_cons_left_iff.mp hfits
    simp only [hparts,headD_cons,getLastD_cons]
    by_cases hmetadata : r.route.resource = "metadata"
    · rw [hmetadata]
      simp only [hmetadata,↓reduceIte,decide_eq_true_eq] at hregular
      subst hregular
      obtain ⟨last,_,hlast,hnil,rfl⟩ := forall₂_cons_left_iff.mp hrest
      obtain rfl := forall₂_nil_left_iff.mp hnil
      obtain rfl : last = "metadata" := hlast
      cases hfixed : fixedResource value with
      | none => simp
      | some resource => simp [fixedResource_ne_metadata hfixed]
    · simp only [hmetadata,↓reduceIte,Bool.and_eq_true,decide_eq_true_eq,Bool.not_eq_true'] at hregular
      obtain rfl : value = first := by simpa [Fits,hregular.1] using hfirst
      cases hfixed : fixedResource value with
      | none =>
        rw [hfixed,none_or] at hregular
        simp only [hregular.2,hmetadata,isSome_none,Bool.false_eq_true,if_false,iff_false,getD_some]
        split_ifs with hlast
        · exact iff_of_false (Ne.symm hmetadata) (not_not.mpr hlast)
        · exact iff_of_true rfl hlast
      | some resource =>
        rw [hfixed] at hregular
        simp [hmetadata,some.inj hregular.2]

/-- The ledger with the id `metadata` is read with a scope for metadata. -/
theorem ledger_read_as_metadata : ∃ r : RoutedRequest, r.route = ⟨"GET","/ledgers/:id","ledgers"⟩ ∧
    getResourceFromPath r.path = "metadata" := by
  have hfits : Forall₂ Fits (pathParts "/ledgers/:id".toList) (pathParts "/ledgers/metadata".toList) :=
    .cons (by decide) (.cons (by decide) .nil)
  refine ⟨⟨⟨"GET","/ledgers/:id","ledgers"⟩,by decide,"/ledgers/metadata".toList,hfits⟩,rfl,?_⟩
  change getResourceFromPath "/ledgers/metadata".toList = "metadata"
  decide

end LedgerForge.Policy
