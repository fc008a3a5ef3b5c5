import LedgerForge.Reconciliation.Datasource

/-! # Matching rules and the groups they see

A transaction is compared with another one, or with a group that is summed up to one. Both group strategies ask for one
page of rows after the other until a page is empty or fails; a page is grouped on its own. Case folding and the distance
of texts come from libraries.
-/

namespace LedgerForge.Reconciliation

structure MatchingCriteria where
  field : String
  operator : String
  allowableDrift : Float64
deriving DecidableEq

structure MatchingRule where
  criteria : List MatchingCriteria
deriving DecidableEq

/-- Library functions on texts, and the platform's conversion of doubles to integers. -/
structure TextFunctions where
  equalFold : String → String → Bool
  toLower : String → String
  levenshtein : List Char → List Char → ℤ
  toInt : Float64 → ℤ

def TextFunctions.plain : TextFunctions where
  equalFold s t := s == t
  toLower s := s
  levenshtein s t := if s = t then 0 else max s.length t.length
  toInt x := x.value.floor

variable (texts : TextFunctions)

def partialMatch (str1 str2 : String) (allowableDrift : Float64) : Bool :=
  let str1 := texts.toLower str1
  let str2 := texts.toLower str2
  if str2.toList <:+: str1.toList ∨ str1.toList <:+: str2.toList then true
  else
    let distance := texts.levenshtein str1.toList str2.toList
    let maxLength := Float64.ofInt (max str1.utf8ByteSize str2.utf8ByteSize)
    distance ≤ texts.toInt (maxLength.mul (allowableDrift.divBy 100))

def matchesString (externalValue internalValue : String) (criteria : MatchingCriteria) : Bool :=
  match criteria.operator with
  | "equals" => (internalValue.splitOn " | ").any fun part => texts.equalFold externalValue part
  | "contains" =>
    (internalValue.splitOn " | ").any fun part => partialMatch texts externalValue part criteria.allowableDrift
  | _ => false

def matchesCurrency (externalValue internalValue : String) (criteria : MatchingCriteria) : Bool :=
  if internalValue = "MIXED" then true else matchesString texts externalValue internalValue criteria

def matchesGroupAmount (externalAmount groupAmount : Float64) (criteria : MatchingCriteria) : Bool :=
  match criteria.operator with
  | "equals" => (externalAmount.sub groupAmount).abs.le (groupAmount.abs.mul criteria.allowableDrift)
  | "greater_than" => groupAmount.lt externalAmount
  | "less_than" => externalAmount.lt groupAmount
  | _ => false

/-- A difference of times in nanoseconds, bounded by what a duration can hold, as seconds. -/
def seconds (difference : ℤ) : Float64 :=
  let d := max (-2^63) (min (2^63-1) difference)
  (Float64.ofInt (d.tdiv (10^9))).add ((Float64.ofInt (d.tmod (10^9))).divBy (10^9))

def matchesGroupDate (externalDate groupEarliestDate : ℤ) (criteria : MatchingCriteria) : Bool :=
  match criteria.operator with
  | "equals" => (seconds (externalDate-groupEarliestDate)).abs.le criteria.allowableDrift
  | "after" => groupEarliestDate < externalDate
  | "greater_than" => groupEarliestDate < externalDate
  | "before" => externalDate < groupEarliestDate
  | "less_than" => externalDate < groupEarliestDate
  | _ => false

def criterionMet (externalTxn groupTxn : Transaction) (criteria : MatchingCriteria) : Bool :=
  match criteria.field with
  | "amount" => matchesGroupAmount externalTxn.amount groupTxn.amount criteria
  | "date" => matchesGroupDate externalTxn.createdAt groupTxn.createdAt criteria
  | "description" => matchesString texts externalTxn.description groupTxn.description criteria
  | "reference" => matchesString texts externalTxn.reference groupTxn.reference criteria
  | "currency" => matchesCurrency texts externalTxn.currency groupTxn.currency criteria
  | _ => false

def matchesRules (externalTxn groupTxn : Transaction) (rules : List MatchingRule) : Bool :=
  rules.any fun rule => rule.criteria.all (criterionMet texts externalTxn groupTxn)

def totalAmount (group : List Transaction) : Float64 :=
  group.foldl (fun total txn => total.add txn.amount) (Float64.ofInt 0)

def zeroTime : ℤ := -62135596800*10^9

def minDate : List Transaction → ℤ
  | [] => zeroTime
  | txn :: rest => rest.foldl (fun date t => if t.createdAt < date then t.createdAt else date) txn.createdAt

def dominantCurrency (currencies : List String) : String :=
  match currencies.dedup with
  | [currency] => currency
  | _ => "MIXED"

def groupTransaction (group : List Transaction) : Transaction where
  transactionID := ""
  amount := totalAmount group
  createdAt := minDate group
  description := " | ".intercalate (group.map Transaction.description)
  reference := " | ".intercalate (group.map Transaction.reference)
  currency := dominantCurrency (group.map Transaction.currency)

def matchesGroup (externalTxn : Transaction) (group : List Transaction) (matchingRules : List MatchingRule) : Bool :=
  matchesRules texts externalTxn (groupTransaction group) matchingRules

open Grouping Float64

/-- Where groups come from: the ledger's transactions, or the rows of an upload. -/
inductive GroupSource
  | internal (transactions : List InternalRow) (groupCriteria : String)
  | external (rows : List ExternalRow) (uploadID groupCriteria : String)

variable {db : Database} {source : GroupSource} {rows : List (String × Transaction)} {batchSize batchSize' : ℕ}

namespace GroupSource

def eligible? (db : Database) : GroupSource → Option (List (String × Transaction))
  | .internal transactions c => (groupedTransactionsQuery db c).map fun key => eligible key InternalRow.toTransaction transactions
  | .external rows u c => (groupedExternalTransactionsQuery db c).map fun key =>
      eligible key (fun r => r.toInternalTransaction) (uploadRows rows u)

/-- One page of groups, not answered by the cache. -/
def page (byKey : ByKey db) (batchSize : ℤ) (offset : ℕ) : GroupSource → Except String (List (String × List Transaction))
  | .internal transactions c =>
    match groupedTransactionsQuery db c with
    | none => .error ("Invalid group criteria: " ++ c)
    | some key => groupedInternalPage byKey transactions key batchSize offset
  | .external rows u c =>
    match groupedExternalTransactionsQuery db c with
    | none => .error ("Invalid group criteria: " ++ c)
    | some key => groupedExternalPage byKey rows u key batchSize offset

theorem page_eq (hrows : source.eligible? db = some rows) (byKey : ByKey db) (offset : ℕ) :
    source.page byKey batchSize offset = .ok (pageGroups byKey batchSize rows offset) := by
  have hsize : ¬ (batchSize : ℤ) < 0 := by omega
  cases source with
  | internal transactions c =>
    obtain ⟨key,hkey,rfl⟩ := Option.map_eq_some_iff.mp hrows
    simp only [page,hkey,groupedInternalPage,groupedPage,if_neg hsize,Int.toNat_natCast]
  | external stored u c =>
    obtain ⟨key,hkey,rfl⟩ := Option.map_eq_some_iff.mp hrows
    simp only [page,hkey,groupedExternalPage,groupedPage,if_neg hsize,Int.toNat_natCast]

/-- The pages that the loop of oneToMany or manyToOne visits when it does not end early. -/
def visited (orders : ℕ → ByKey db) (batchSize : ℕ) (source : GroupSource) : List (List (String × List Transaction)) :=
  served (fun offset => (source.page (orders offset) batchSize offset).toOption.getD []) batchSize
    (((source.eligible? db).getD []).length+1) 0

theorem visited_eq (hrows : source.eligible? db = some rows) (orders : ℕ → ByKey db) :
    source.visited orders batchSize = allPages orders batchSize rows := by
  simp only [visited,allPages,page_eq hrows,hrows,Except.toOption,Option.getD_some]

end GroupSource

/-- The groups that the matcher gets from all pages are the grouping of the eligible rows exactly when no page ends inside
a group. If the server keeps to one order, batch sizes that cut no group then give the same groups and matches. -/
theorem group_integrity (db : Database) (source : GroupSource) (rows : List (String × Transaction))
    (hrows : source.eligible? db = some rows) (batchSize : ℕ) (hsize : 0 < batchSize) :
    (∀ orders : ℕ → ByKey db, Whole (source.visited orders batchSize).flatten rows ↔ Uncut db.sortKey batchSize rows) ∧
    ∀ (order : ByKey db) (batchSize' : ℕ), 0 < batchSize' → Uncut db.sortKey batchSize rows →
      Uncut db.sortKey batchSize' rows → ∀ (key : String) (group : List Transaction),
        ((key,group) ∈ (source.visited (fun _ => order) batchSize).flatten ↔
          (key,group) ∈ (source.visited (fun _ => order) batchSize').flatten) := by
  refine ⟨fun orders => ?_,fun order batchSize' hsize' huncut huncut' key group => ?_⟩
  · rw [GroupSource.visited_eq hrows]
    exact whole_iff db.injective hsize orders
  · rw [GroupSource.visited_eq hrows,GroupSource.visited_eq hrows,mem_allPages_iff db.injective hsize huncut order,
      mem_allPages_iff db.injective hsize' huncut' order]

def twoReferences : GroupSource :=
  .external [⟨⟨"x",ofInt 5,"A","USD","",1,"bank"⟩,"u"⟩,⟨⟨"y",ofInt 7,"A","USD","",2,"bank"⟩,"u"⟩,
    ⟨⟨"z",ofInt 9,"B","USD","",3,"bank"⟩,"u"⟩] "u" "reference"

/-- Pages of two rows do not cut the first group. -/
theorem two_rows_whole : ∃ rows, twoReferences.eligible? .plain = some rows ∧
    Whole (twoReferences.visited (fun _ => (Plan.stable .plain).byKey) 2).flatten rows := by
  refine ⟨[("A",⟨"x",ofInt 5,"A","USD",1,""⟩),("A",⟨"y",ofInt 7,"A","USD",2,""⟩),
    ("B",⟨"z",ofInt 9,"B","USD",3,""⟩)],by decide +kernel,?_⟩
  exact ((group_integrity .plain twoReferences _ (by decide +kernel) 2 (by decide)).1 _).mpr (by decide)

def sameAmount : List MatchingRule := [⟨[⟨"amount","equals",ofInt 0⟩]⟩]

/-- Pages of one row do: the first group is handed over twice, with one member each time, and a transaction of twelve
that matches the whole group matches neither part. -/
theorem one_row_pages_cut : ∃ x y z twelve : Transaction,
    twoReferences.eligible? .plain = some [("A",x),("A",y),("B",z)] ∧
    (twoReferences.visited (fun _ => (Plan.stable .plain).byKey) 1).flatten = [("A",[x]),("A",[y]),("B",[z])] ∧
    ¬ Whole (twoReferences.visited (fun _ => (Plan.stable .plain).byKey) 1).flatten [("A",x),("A",y),("B",z)] ∧
    matchesGroup .plain twelve [x,y] sameAmount = true ∧
    ∀ g ∈ (twoReferences.visited (fun _ => (Plan.stable .plain).byKey) 1).flatten,
      matchesGroup .plain twelve g.2 sameAmount = false := by
  refine ⟨⟨"x",ofInt 5,"A","USD",1,""⟩,⟨"y",ofInt 7,"A","USD",2,""⟩,⟨"z",ofInt 9,"B","USD",3,""⟩,
    ⟨"t",ofInt 12,"","USD",0,""⟩,by decide +kernel,by decide +kernel,fun h => ?_,by decide +kernel,by decide +kernel⟩
  exact absurd h.once (by decide)

end LedgerForge.Reconciliation
