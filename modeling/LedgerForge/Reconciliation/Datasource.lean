import LedgerForge.Library.Grouping
import LedgerForge.Library.ReadThrough
import LedgerForge.Model.Transaction
import Mathlib.Data.String.Basic

/-! # What reconciliation reads

Uploaded rows and ledger transactions are read page by page through one cache, either as they are or grouped by a
column. The order of rows that the ORDER BY clause leaves open is chosen anew for every query.
-/

namespace LedgerForge.Reconciliation

open Grouping String Float64 Cache

/-- A transaction of an uploaded file. -/
structure ExternalTransaction where
  id : String
  amount : Float64
  reference : String
  currency : String
  description : String
  date : ℤ
  source : String
deriving DecidableEq

/-- A transaction as far as reconciliation reads it. -/
structure Transaction where
  transactionID : String
  amount : Float64
  reference : String
  currency : String
  createdAt : ℤ
  description : String
deriving DecidableEq

def ExternalTransaction.toInternalTransaction (et : ExternalTransaction) : Transaction where
  transactionID := et.id
  amount := et.amount
  reference := et.reference
  currency := et.currency
  createdAt := et.date
  description := et.description

structure ExternalRow extends ExternalTransaction where
  uploadID : String
deriving DecidableEq

/-- A row of the transactions table, as far as it can be grouped by. -/
structure InternalRow extends Transaction where
  parentTransaction : String
  source : String
  destination : String
  status : Status
deriving DecidableEq

/-- What the database server decides: the collation, and the texts of numbers and times. -/
structure Database where
  Key : Type
  [order : LinearOrder Key]
  sortKey : String → Key
  injective : Function.Injective sortKey
  amountText : Float64 → String
  timeText : ℤ → String

attribute [instance] Database.order

variable (db : Database)

abbrev ByDate := Arrangement fun r s : ExternalRow => s.date ≤ r.date

abbrev ByKey := Arrangement fun p q : String × Transaction => db.sortKey p.1 ≤ db.sortKey q.1

/-- The orders that the server chooses for one query. -/
structure Plan where
  byDate : ByDate
  byKey : ByKey db

instance : Std.Total fun r s : ExternalRow => s.date ≤ r.date := ⟨fun r s => le_total s.date r.date⟩

instance : IsTrans ExternalRow fun r s => s.date ≤ r.date := ⟨fun _ _ _ h h' => h'.trans h⟩

instance : Std.Total fun p q : String × Transaction => db.sortKey p.1 ≤ db.sortKey q.1 := ⟨fun _ _ => le_total _ _⟩

instance : IsTrans (String × Transaction) fun p q => db.sortKey p.1 ≤ db.sortKey q.1 := ⟨fun _ _ _ h h' => h.trans h'⟩

/-- A server that returns rows of equal rank in the order in which they are stored. -/
def Plan.stable : Plan db := ⟨.ofSort _,.ofSort _⟩

def Database.plain : Database where
  Key := String
  sortKey := id
  injective := Function.injective_id
  amountText := fixed2
  timeText t := toString t

def uploadRows (rows : List ExternalRow) (uploadID : String) : List ExternalRow :=
  rows.filter fun r => r.uploadID = uploadID

def eligible {ρ : Type} (key : ρ → String) (txn : ρ → Transaction) (rows : List ρ) : List (String × Transaction) :=
  (rows.filter fun r => key r ≠ "").map fun r => (key r,txn r)

def groupedExternalTransactionsQuery : String → Option (ExternalRow → String)
  | "id" => some fun r => r.id
  | "amount" => some fun r => db.amountText r.amount
  | "reference" => some fun r => r.reference
  | "currency" => some fun r => r.currency
  | "description" => some fun r => r.description
  | "date" => some fun r => db.timeText r.date
  | "source" => some fun r => r.source
  | _ => none

def groupedTransactionsQuery : String → Option (InternalRow → String)
  | "transaction_id" => some fun r => r.transactionID
  | "parent_transaction" => some fun r => r.parentTransaction
  | "source" => some fun r => r.source
  | "reference" => some fun r => r.reference
  | "currency" => some fun r => r.currency
  | "destination" => some fun r => r.destination
  | "status" => some fun r => r.status.text
  | "created_at" => some fun r => db.timeText r.createdAt
  | _ => none

variable {db}

def externalTransactionsPage (byDate : ByDate) (rows : List ExternalRow) (uploadID : String) (batchSize : ℤ) (offset : ℕ) :
    Except String (List ExternalTransaction) :=
  if batchSize < 0 then .error "Failed to retrieve external transactions"
  else .ok ((Paging.page offset batchSize.toNat (byDate.order (uploadRows rows uploadID))).map
    ExternalRow.toExternalTransaction)

def groupedPage (byKey : ByKey db) (rows : List (String × Transaction)) (batchSize : ℤ) (offset : ℕ) (failure : String) :
    Except String (List (String × List Transaction)) :=
  if batchSize < 0 then .error failure else .ok (pageGroups byKey batchSize.toNat rows offset)

def groupedExternalPage (byKey : ByKey db) (rows : List ExternalRow) (uploadID : String) (key : ExternalRow → String)
    (batchSize : ℤ) (offset : ℕ) : Except String (List (String × List Transaction)) :=
  groupedPage byKey (eligible key (fun r => r.toInternalTransaction) (uploadRows rows uploadID)) batchSize offset
    "Failed to retrieve grouped external transactions"

def groupedInternalPage (byKey : ByKey db) (rows : List InternalRow) (key : InternalRow → String) (batchSize : ℤ)
    (offset : ℕ) : Except String (List (String × List Transaction)) :=
  groupedPage byKey (eligible key InternalRow.toTransaction rows) batchSize offset "Failed to retrieve grouped transactions"

/-- What is kept under a key. -/
inductive CacheEntry
  | page (transactions : List ExternalTransaction)
  | groups (groupedTransactions : List (String × List Transaction))
deriving DecidableEq

namespace CacheEntry

def pageKind : Kind CacheEntry (List ExternalTransaction) where
  encode := .page
  decode
    | .page l => some l
    | .groups _ => none
  usable l := !l.isEmpty
  decode_encode _ := rfl

def groupsKind : Kind CacheEntry (List (String × List Transaction)) where
  encode := .groups
  decode
    | .page _ => none
    | .groups g => some g
  usable g := !g.isEmpty
  decode_encode _ := rfl

end CacheEntry

def externalPageKey (batchSize : ℤ) (offset : ℕ) : String :=
  "transactions:external:paginated:" ++ toString batchSize ++ ":" ++ toString offset

def groupedExternalKey (uploadID groupCriteria : String) (batchSize : ℤ) (offset : ℕ) : String :=
  "external_transactions:grouped:" ++ uploadID ++ ":" ++ groupCriteria ++ ":" ++ toString batchSize ++ ":" ++
    toString offset

structure Datasource where
  external : List ExternalRow
  cache : Cache String CacheEntry

def Datasource.empty : Datasource := ⟨[],Cache.empty⟩

def recordExternalTransaction (d : Datasource) (tx : ExternalTransaction) (uploadID : String) : Except String Datasource :=
  if tx.id ∈ d.external.map fun r => r.id then .error "Failed to record external transaction"
  else .ok { d with external := d.external ++ [⟨tx,uploadID⟩] }

def getExternalTransactionsPaginated (plan : Plan db) (d : Datasource) (uploadID : String) (batchSize : ℤ) (offset : ℕ) :
    Except String (List ExternalTransaction) × Datasource :=
  let r := readThrough CacheEntry.pageKind d.cache (externalPageKey batchSize offset)
    (externalTransactionsPage plan.byDate d.external uploadID batchSize offset)
  (r.1,{ d with cache := r.2 })

def fetchAndGroupExternalTransactions (plan : Plan db) (d : Datasource) (uploadID groupCriteria : String) (batchSize : ℤ)
    (offset : ℕ) : Except String (List (String × List Transaction)) × Datasource :=
  match groupedExternalTransactionsQuery db groupCriteria with
  | none => (.error ("Invalid group criteria: " ++ groupCriteria),d)
  | some key =>
    let r := readThrough CacheEntry.groupsKind d.cache (groupedExternalKey uploadID groupCriteria batchSize offset)
      (groupedExternalPage plan.byKey d.external uploadID key batchSize offset)
    (r.1,{ d with cache := r.2 })

theorem toList_natText (n : ℕ) : (toString n).toList = Nat.toDigits 10 n := by
  rw [show toString n = ofList (Nat.toDigits 10 n) from Nat.repr_eq_ofList_toDigits,toList_ofList]

theorem isDigit_of_mem_natText {n : ℕ} {c : Char} (h : c ∈ (toString n).toList) : c.isDigit = true :=
  Nat.isDigit_of_mem_toDigits (by decide) (by decide) (toList_natText n ▸ h)

theorem natText_head_ne_minus (n : ℕ) : ∀ s : String, toString n ≠ "-" ++ s := by
  intro s h
  have hmem : '-' ∈ (toString n).toList := by
    rw [h,toList_append]
    exact List.mem_append_left _ (by simp)
  exact absurd (isDigit_of_mem_natText hmem) (by decide)

theorem intText_injective {m n : ℤ} (h : toString m = toString n) : m = n := by
  cases m with
  | ofNat m =>
    cases n with
    | ofNat n => exact congrArg Int.ofNat (toString_nat_injective h)
    | negSucc n => exact absurd h (natText_head_ne_minus m _)
  | negSucc m =>
    cases n with
    | ofNat n => exact absurd h.symm (natText_head_ne_minus n _)
    | negSucc n =>
      have htext : "-" ++ toString (m+1) = "-" ++ toString (n+1) := h
      have := toString_nat_injective (append_right_inj _ |>.mp htext)
      rw [Nat.succ.inj this]

theorem colon_notMem_natText (n : ℕ) : ':' ∉ (toString n).toList := fun h =>
  absurd (isDigit_of_mem_natText h) (by decide)

theorem colon_notMem_intText (n : ℤ) : ':' ∉ (toString n).toList := by
  cases n with
  | ofNat n => exact colon_notMem_natText n
  | negSucc n =>
    have htext : toString (Int.negSucc n) = "-" ++ toString (n+1) := rfl
    rw [htext,toList_append,List.mem_append]
    rintro (h | h)
    · simp at h
    · exact colon_notMem_natText _ h

theorem append_colon_inj {a b s t : String} (hs : ':' ∉ s.toList) (ht : ':' ∉ t.toList) (h : a ++ ":" ++ s = b ++ ":" ++ t) :
    a = b ∧ s = t := by
  have hlist := congrArg toList h
  simp only [toList_append,List.append_assoc] at hlist
  obtain ⟨ha,hst⟩ := append_separator_inj hs ht hlist
  exact ⟨toList_inj.mp ha,toList_inj.mp hst⟩

theorem externalPageKey_injective {b b' : ℤ} {o o' : ℕ} (h : externalPageKey b o = externalPageKey b' o') :
    b = b' ∧ o = o' := by
  obtain ⟨hb,ho⟩ := append_colon_inj (colon_notMem_natText o) (colon_notMem_natText o') h
  exact ⟨intText_injective (append_right_inj _ |>.mp hb),toString_nat_injective ho⟩

theorem colon_notMem_criteria {c : String} {key : ExternalRow → String}
    (h : groupedExternalTransactionsQuery db c = some key) : ':' ∉ c.toList := by
  unfold groupedExternalTransactionsQuery at h
  split at h
  all_goals cases h
  all_goals decide

theorem groupedExternalKey_injective {u u' c c' : String} {b b' : ℤ} {o o' : ℕ} (hc : ':' ∉ c.toList)
    (hc' : ':' ∉ c'.toList) (h : groupedExternalKey u c b o = groupedExternalKey u' c' b' o') :
    u = u' ∧ c = c' ∧ b = b' ∧ o = o' := by
  obtain ⟨hrest,ho⟩ := append_colon_inj (colon_notMem_natText o) (colon_notMem_natText o') h
  obtain ⟨hrest,hb⟩ := append_colon_inj (colon_notMem_intText b) (colon_notMem_intText b') hrest
  obtain ⟨hu,hcc⟩ := append_colon_inj hc hc' hrest
  exact ⟨append_right_inj _ |>.mp hu,hcc,intText_injective hb,toString_nat_injective ho⟩

theorem head_append {s t : String} {c : Char} (h : s.toList.head? = some c) : (s ++ t).toList.head? = some c := by
  rw [toList_append,List.head?_append,h,Option.some_or]

theorem head_externalPageKey (b : ℤ) (o : ℕ) : (externalPageKey b o).toList.head? = some 't' :=
  head_append (head_append (head_append (by decide)))

theorem head_groupedExternalKey (u c : String) (b : ℤ) (o : ℕ) : (groupedExternalKey u c b o).toList.head? = some 'e' :=
  head_append (head_append (head_append (head_append (head_append (head_append (head_append (by decide)))))))

theorem externalPageKey_ne_grouped (b b' : ℤ) (o o' : ℕ) (u c : String) :
    externalPageKey b o ≠ groupedExternalKey u c b' o' := by
  intro h
  have hfirst := head_externalPageKey b o
  rw [h,head_groupedExternalKey] at hfirst
  exact absurd (Option.some.inj hfirst) (by decide)

end LedgerForge.Reconciliation
