import LedgerForge.Storage.Tables

/-! # Posting against the tables

Balance updates guarded by the version that was read, and the insert of the transaction row. Everything is in
`Except`, so a failing statement leaves no trace of the earlier ones.
-/

namespace LedgerForge

open VersionedStore Cell

def Balance.cell (b : Balance) : StoredBalance :=
  ⟨b.balanceID,b.version,⟨b.currency,b.counters,b.balance,b.inflightBalance⟩⟩

/-- Load a stored balance; the queued debit total is computed separately when it is enabled. -/
def loadBalance (c : StoredBalance) (queuedDebit : Option ℤ) : Balance where
  balanceID := c.key
  currency := c.value.currency
  counters := c.value.counters
  balance := c.value.balance
  inflightBalance := c.value.inflightBalance
  queuedDebitBalance := queuedDebit
  version := c.version

/-- The stored columns of a transaction with its resolved amount and integral precision. -/
def Transaction.columns (t : Transaction) (amount precision : ℤ) : Row where
  transactionID := t.transactionID
  parentTransaction := t.parentTransaction
  source := t.source
  destination := t.destination
  reference := t.reference
  currency := t.currency
  amount := t.amountString
  preciseAmount := some amount
  precision := precision
  rate := t.rate
  overdraftLimit := t.overdraftLimit
  status := t.status
  queueAction := t.queueAction
  controls := t.executionControls

/-- The row to insert; both amounts are required and the precision must be a 64-bit integer. -/
def Transaction.toRow (t : Transaction) : Except String Row :=
  if t.amountString = "" then .error "amount is required"
  else match t.preciseAmount with
    | none => .error "precise_amount is required"
    | some a => match t.precision.toInt? with
      | none => .error "invalid input syntax for type bigint"
      | some p =>
        if p < -2^63 ∨ 2^63 ≤ p then .error "value is out of range for type bigint" else .ok (t.columns a p)

def maxBalancesPerUpdateChunk : ℕ := 1000

/-- Consecutive slices of at most `n` elements; `fuel` is the number of slices allowed. -/
def slices {α : Type} (n : ℕ) : ℕ → List α → List (List α)
  | 0, _ => []
  | _, [] => []
  | fuel+1, l => l.take n :: slices n fuel (l.drop n)

def conflictMessage (id : String) : String :=
  "Optimistic locking failure: balance with ID '" ++ id ++
    "' may have been updated or deleted by another transaction"

/-- The first balance per identifier; empty identifiers are skipped. -/
def uniqueBalances (bs : List Balance) : List Balance :=
  bs.foldl (fun acc b => if b.balanceID = "" ∨ b.balanceID ∈ acc.map Balance.balanceID then acc else acc ++ [b]) []

namespace Database

def updateBalanceChunk (db : Database) (bs : List Balance) : Except String Database :=
  match writeSet db.balances (bs.map Balance.cell) with
  | some cells => .ok { db with balances := cells }
  | none =>
    .error (conflictMessage (((bs.find? fun b => !db.balances.any b.cell.expects).map Balance.balanceID).getD ""))

/-- One balance, updated only if its version is still stored. -/
def updateBalance (db : Database) (b : Balance) : Except String Database := db.updateBalanceChunk [b]

def updateBalanceSet (db : Database) (bs : List Balance) : Except String Database :=
  let unique := uniqueBalances bs
  (slices maxBalancesPerUpdateChunk unique.length unique).foldlM updateBalanceChunk db

def recordTransaction (db : Database) (t : Transaction) : Except String Database := do
  let row ← t.toRow
  db.insertRow row

def recordTransactions (db : Database) (ts : List Transaction) : Except String Database :=
  ts.foldlM recordTransaction db

def recordTransactionWithBalances (db : Database) (t : Transaction) (source destination : Balance) :
    Except String Database := do
  let db ← db.updateBalance source
  let db ← db.updateBalance destination
  db.recordTransaction t

def recordTransactionsWithBalanceSet (db : Database) (ts : List Transaction) (bs : List Balance) :
    Except String Database := do
  let db ← db.updateBalanceSet bs
  db.recordTransactions ts

end Database

namespace Row

def movement (r : Row) : Option Movement :=
  match r.status with
  | .applied => if r.queueAction = .commit then some .commit else some .plain
  | .inflight => some .hold
  | .void => some .void
  | _ => none

def delta (r : Row) (id : String) : Counters :=
  match r.movement with
  | none => 0
  | some m =>
    (if r.source = id then m.debitSide (r.preciseAmount.getD 0) else 0)+
      (if r.destination = id then m.creditSide (r.preciseAmount.getD 0) else 0)

theorem delta_of_ne {r : Row} {id : String} (hs : r.source ≠ id) (hd : r.destination ≠ id) : r.delta id = 0 := by
  rw [delta]
  split
  · rfl
  · rw [if_neg hs,if_neg hd,add_zero]

end Row

def replay (rows : List Row) (id : String) : Counters := rows.foldl (fun c r => c+r.delta id) 0

theorem replay_eq_sum (rows : List Row) (id : String) : replay rows id = (rows.map fun r => r.delta id).sum := by
  rw [replay,List.sum_eq_foldl,List.foldl_map]

theorem replay_append (rows rows' : List Row) (id : String) :
    replay (rows ++ rows') id = replay rows id+replay rows' id := by
  simp [replay_eq_sum]

theorem replay_perm {rows rows' : List Row} (h : rows.Perm rows') (id : String) : replay rows id = replay rows' id := by
  rw [replay_eq_sum,replay_eq_sum]
  exact (h.map _).sum_eq

open List Balance

theorem slices_flatten {α : Type} {n : ℕ} (hn : 0 < n) (fuel : ℕ) (l : List α) (h : l.length ≤ fuel) :
    (slices n fuel l).flatten = l := by
  induction fuel generalizing l with
  | zero =>
    rw [length_eq_zero_iff.mp (Nat.le_zero.mp h)]
    rfl
  | succ fuel ih =>
    cases l with
    | nil => rfl
    | cons x xs =>
      have hdrop : ((x :: xs).drop n).length ≤ fuel := by
        rw [length_drop]
        omega
      rw [slices.eq_3,flatten_cons,ih _ hdrop,take_append_drop]
      exact fun he => by cases he

section Unique

/-- The loop invariant of `uniqueBalances`: distinct non-empty identifiers, all taken from the input. -/
theorem uniqueBalances_loop (bs acc : List Balance) (hn : (acc.map balanceID).Nodup)
    (he : ∀ b ∈ acc, b.balanceID ≠ "") :
    let r := bs.foldl (fun acc b => if b.balanceID = "" ∨ b.balanceID ∈ acc.map balanceID then acc
      else acc ++ [b]) acc
    (r.map balanceID).Nodup ∧ (∀ b ∈ r, b.balanceID ≠ "") ∧ (∀ b ∈ r, b ∈ acc ∨ b ∈ bs) ∧
      (∀ b ∈ acc, b ∈ r) ∧ ∀ b ∈ bs, b.balanceID ≠ "" → b.balanceID ∈ r.map balanceID := by
  induction bs generalizing acc with
  | nil => exact ⟨hn,he,fun b hb => .inl hb,fun b hb => hb,fun b hb => absurd hb not_mem_nil⟩
  | cons b bs ih =>
    rw [foldl_cons]
    split
    · rename_i hskip
      obtain ⟨h1,h2,h3,h4,h5⟩ := ih acc hn he
      refine ⟨h1,h2,fun c hc => (h3 c hc).imp_right (mem_cons_of_mem _),h4,fun c hc hne => ?_⟩
      rcases mem_cons.mp hc with rfl | hc
      · obtain ⟨d,hd,hid⟩ := mem_map.mp (hskip.resolve_left hne)
        exact hid ▸ mem_map_of_mem (h4 d hd)
      · exact h5 c hc hne
    · rename_i hkeep
      rw [not_or] at hkeep
      have hn' : ((acc ++ [b]).map balanceID).Nodup := by
        rw [map_append,map_singleton,nodup_append_comm,singleton_append,nodup_cons]
        exact ⟨hkeep.2,hn⟩
      have he' : ∀ c ∈ acc ++ [b], c.balanceID ≠ "" := by
        intro c hc
        rcases mem_append.mp hc with hc | hc
        · exact he c hc
        · rw [mem_singleton.mp hc]
          exact hkeep.1
      obtain ⟨h1,h2,h3,h4,h5⟩ := ih (acc ++ [b]) hn' he'
      refine ⟨h1,h2,fun c hc => ?_,fun c hc => h4 c (mem_append_left _ hc),fun c hc hne => ?_⟩
      · rcases h3 c hc with hc | hc
        · rcases mem_append.mp hc with hc | hc
          · exact .inl hc
          · exact .inr (mem_singleton.mp hc ▸ mem_cons_self)
        · exact .inr (mem_cons_of_mem _ hc)
      · rcases mem_cons.mp hc with rfl | hc
        · exact mem_map_of_mem (h4 c (mem_append_right _ (mem_singleton_self c)))
        · exact h5 c hc hne

theorem uniqueBalances_nodup (bs : List Balance) : ((uniqueBalances bs).map balanceID).Nodup :=
  (uniqueBalances_loop bs [] nodup_nil (fun _ h => absurd h not_mem_nil)).1

theorem uniqueBalances_of_nodup {bs : List Balance} (hn : (bs.map balanceID).Nodup)
    (he : ∀ b ∈ bs, b.balanceID ≠ "") : uniqueBalances bs = bs := by
  have hloop : ∀ (rest acc : List Balance), ((acc ++ rest).map balanceID).Nodup → (∀ b ∈ rest, b.balanceID ≠ "") →
      rest.foldl (fun acc b => if b.balanceID = "" ∨ b.balanceID ∈ acc.map balanceID then acc
        else acc ++ [b]) acc = acc ++ rest := by
    intro rest
    induction rest with
    | nil => exact fun acc _ _ => (append_nil acc).symm
    | cons b rest ih =>
      intro acc hn he
      have hnew : b.balanceID ∉ acc.map balanceID := by
        rw [map_append,nodup_append] at hn
        exact fun h => hn.2.2 _ h _ (by simp) rfl
      rw [foldl_cons,if_neg (not_or.mpr ⟨he b mem_cons_self,hnew⟩),ih _ (by simpa using hn)
        (fun c hc => he c (mem_cons_of_mem _ hc)),append_assoc,singleton_append]
  exact hloop bs [] hn he

end Unique

namespace Database

def UniqueBalances (db : Database) : Prop := (db.balances.map key).Nodup

variable {db : Database}

theorem isSome_findBalance {id : String} :
    (db.findBalance id).isSome ↔ id ∈ db.balances.map key := by
  rw [Option.isSome_iff_ne_none,findBalance,VersionedStore.lookup,Ne,Keyed.find_eq_none]
  simp

/-- Only the balances changed, by conditional writes of the given cells. -/
structure BalancesWritten (db db' : Database) (bs : List Balance) : Prop where
  written : Written db.balances db'.balances (bs.map cell)
  transactions : db'.transactions = db.transactions
  refundClaims : db'.refundClaims = db.refundClaims

variable {db' : Database} {bs : List Balance}

theorem BalancesWritten.unique (h : BalancesWritten db db' bs)
    (hn : db.UniqueBalances) : db'.UniqueBalances := by
  rw [UniqueBalances,h.written.keys]
  exact hn

theorem updateBalanceChunk_ok (hn : db.UniqueBalances)
    (hbs : (bs.map balanceID).Nodup) (h : db.updateBalanceChunk bs = .ok db') : BalancesWritten db db' bs := by
  rw [updateBalanceChunk] at h
  split at h
  · rename_i cells hcells
    cases h
    have hkeys : ((bs.map cell).map key).Nodup := by
      rw [map_map]
      exact hbs
    exact ⟨writeSet_written hn hkeys hcells,rfl,rfl⟩
  · cases h

theorem updateChunks_ok {chunks : List (List Balance)} (hn : db.UniqueBalances)
    (hbs : (chunks.flatten.map balanceID).Nodup) (h : chunks.foldlM updateBalanceChunk db = .ok db') :
    BalancesWritten db db' chunks.flatten := by
  induction chunks generalizing db with
  | nil =>
    cases h
    exact ⟨.nil _,rfl,rfl⟩
  | cons bs rest ih =>
    rw [flatten_cons,map_append,nodup_append] at hbs
    obtain ⟨mid,hmid,hrest⟩ := bind_ok h
    have hfirst := updateBalanceChunk_ok hn hbs.1 hmid
    have hsecond := ih (hfirst.unique hn) hbs.2.1 hrest
    refine ⟨?_,hsecond.transactions.trans hfirst.transactions,hsecond.refundClaims.trans hfirst.refundClaims⟩
    rw [flatten_cons,map_append]
    refine hfirst.written.append hsecond.written fun w hw hmem => ?_
    obtain ⟨b,hb,rfl⟩ := mem_map.mp hw
    obtain ⟨_,hcell,hkey⟩ := mem_map.mp hmem
    obtain ⟨c,hc,rfl⟩ := mem_map.mp hcell
    exact hbs.2.2 _ (mem_map_of_mem hb) _ (mem_map_of_mem hc) hkey.symm

theorem updateBalanceSet_ok (hn : db.UniqueBalances)
    (h : db.updateBalanceSet bs = .ok db') : BalancesWritten db db' (uniqueBalances bs) := by
  have hflat := slices_flatten (by decide : 0 < maxBalancesPerUpdateChunk) _ (uniqueBalances bs) le_rfl
  have := updateChunks_ok hn (by rw [hflat]; exact uniqueBalances_nodup bs) h
  rwa [hflat] at this

/-- What a successful insert did: the trigger accepted the row, its identifier and reference were
unused, both balances exist, and the row was appended. -/
structure Inserted (db db' : Database) (r : Row) : Prop where
  lifecycle : claimTransactionLifecycle db.transactions db.refundClaims r = .ok db'.refundClaims
  freshID : ∀ x ∈ db.transactions, x.transactionID ≠ r.transactionID
  freshReference : ∀ x ∈ db.transactions, x.reference ≠ r.reference
  source : ∃ c, db.findBalance r.source = some c
  destination : ∃ c, db.findBalance r.destination = some c
  transactions : db'.transactions = db.transactions ++ [r]
  balances : db'.balances = db.balances

variable {r : Row}

theorem insertRow_ok (h : db.insertRow r = .ok db') : Inserted db db' r := by
  rw [insertRow] at h
  split at h
  · cases h
  rename_i claims hclaims
  split_ifs at h with hid href hsource hdestination
  cases h
  refine ⟨hclaims,fun x hx he => hid ?_,fun x hx he => href ?_,?_,?_,rfl,rfl⟩
  · exact any_eq_true.mpr ⟨x,hx,decide_eq_true he⟩
  · exact any_eq_true.mpr ⟨x,hx,decide_eq_true he⟩
  · exact Option.ne_none_iff_exists'.mp fun hn => hsource (by rw [hn]; rfl)
  · exact Option.ne_none_iff_exists'.mp fun hn => hdestination (by rw [hn]; rfl)

/-- Rows inserted one after the other. -/
inductive InsertedAll : Database → List Row → Database → Prop
  | nil (db : Database) : InsertedAll db [] db
  | cons {db mid db' : Database} {r : Row} {rs : List Row} (head : Inserted db mid r)
      (tail : InsertedAll mid rs db') : InsertedAll db (r :: rs) db'

variable {rs : List Row}

theorem InsertedAll.transactions (h : InsertedAll db rs db') :
    db'.transactions = db.transactions ++ rs := by
  induction h with
  | nil db => rw [append_nil]
  | cons head _ ih => rw [ih,head.transactions,append_assoc,singleton_append]

theorem InsertedAll.endpoints (h : InsertedAll db rs db') :
    ∀ r ∈ rs, (∃ c, db.findBalance r.source = some c) ∧ ∃ c, db.findBalance r.destination = some c := by
  induction h with
  | nil db => exact fun r hr => absurd hr not_mem_nil
  | cons head _ ih =>
    intro r hr
    rcases mem_cons.mp hr with rfl | hr
    · exact ⟨head.source,head.destination⟩
    · rw [findBalance,findBalance,← head.balances]
      exact ih r hr

theorem InsertedAll.balances (h : InsertedAll db rs db') :
    db'.balances = db.balances := by
  induction h with
  | nil db => rfl
  | cons head _ ih => rw [ih,head.balances]

/-- The row a transaction is stored as. -/
structure StoredAs (t : Transaction) (r : Row) : Prop where
  columns : ∃ a p, t.preciseAmount = some a ∧ t.precision.toInt? = some p ∧ -2^63 ≤ p ∧ p < 2^63 ∧ r = t.columns a p
  amountString : t.amountString ≠ ""

variable {t : Transaction}

theorem toRow_ok (h : t.toRow = .ok r) : StoredAs t r := by
  obtain ⟨htext,h⟩ := ok_of_guard h
  split at h
  · cases h
  rename_i a ha
  split at h
  · cases h
  rename_i p hp
  obtain ⟨hrange,h⟩ := ok_of_guard h
  cases h
  exact ⟨⟨a,p,ha,hp,by omega,by omega,rfl⟩,htext⟩

theorem recordTransaction_ok (h : db.recordTransaction t = .ok db') :
    ∃ r, StoredAs t r ∧ Inserted db db' r := by
  obtain ⟨r,hr,hinsert⟩ := bind_ok h
  exact ⟨r,toRow_ok hr,insertRow_ok hinsert⟩

theorem recordTransactions_ok {ts : List Transaction} (h : db.recordTransactions ts = .ok db') :
    ∃ rs, List.Forall₂ StoredAs ts rs ∧ InsertedAll db rs db' := by
  induction ts generalizing db with
  | nil =>
    cases h
    exact ⟨[],.nil,.nil _⟩
  | cons t ts ih =>
    obtain ⟨mid,hmid,hrest⟩ := bind_ok h
    obtain ⟨r,hr,hinsert⟩ := recordTransaction_ok hmid
    obtain ⟨rs,hrs,hall⟩ := ih hrest
    exact ⟨r :: rs,.cons hr hrs,.cons hinsert hall⟩

theorem updateBalance_exists {b : Balance} {c : StoredBalance} (hc : db.findBalance b.balanceID = some c)
    (hv : c.version = b.version) : ∃ db', db.updateBalance b = .ok db' := by
  have hexpects : ∀ w ∈ [b].map cell, ∃ c ∈ db.balances, w.expects c = true := by
    intro w hw
    rw [map_singleton,mem_singleton] at hw
    subst hw
    refine ⟨c,Keyed.find_mem hc,?_⟩
    have hkey : c.key = b.balanceID := Keyed.find_key hc
    simp [expects,cell,hkey,hv]
  rw [updateBalance,updateBalanceChunk,writeSet,if_pos hexpects]
  exact ⟨_,rfl⟩

theorem insertRow_of_checks {claims : List RefundClaim}
    (hl : claimTransactionLifecycle db.transactions db.refundClaims r = .ok claims)
    (hid : ∀ x ∈ db.transactions, x.transactionID ≠ r.transactionID)
    (href : ∀ x ∈ db.transactions, x.reference ≠ r.reference) (hs : (db.findBalance r.source).isSome = true)
    (hd : (db.findBalance r.destination).isSome = true) :
    db.insertRow r = .ok { db with transactions := db.transactions ++ [r], refundClaims := claims } := by
  have hid' : (db.transactions.any fun x => x.transactionID = r.transactionID) = false := by simpa using hid
  have href' : (db.transactions.any fun x => x.reference = r.reference) = false := by simpa using href
  rw [insertRow,hl]
  simp only [hid',href',Option.isNone_eq_false_iff.mpr hs,Option.isNone_eq_false_iff.mpr hd,Bool.false_eq_true,if_false]

/-- Both balances are written and the row is inserted when both were read at the stored version. -/
theorem recordTransactionWithBalances_exists {source destination : Balance}
    {cs cd : StoredBalance} {claims : List RefundClaim} (hn : db.UniqueBalances) (hrow : t.toRow = .ok r)
    (hs : db.findBalance source.balanceID = some cs) (hsv : cs.version = source.version)
    (hd : db.findBalance destination.balanceID = some cd) (hdv : cd.version = destination.version)
    (hne : source.balanceID ≠ destination.balanceID)
    (hl : claimTransactionLifecycle db.transactions db.refundClaims r = .ok claims)
    (hid : ∀ x ∈ db.transactions, x.transactionID ≠ r.transactionID)
    (href : ∀ x ∈ db.transactions, x.reference ≠ r.reference) (hrs : (db.findBalance r.source).isSome = true)
    (hrd : (db.findBalance r.destination).isSome = true) :
    ∃ db', db.recordTransactionWithBalances t source destination = .ok db' ∧
      db'.transactions = db.transactions ++ [r] ∧ db'.refundClaims = claims ∧
      Written db.balances db'.balances [source.cell,destination.cell] := by
  obtain ⟨db₁,h₁⟩ := updateBalance_exists hs hsv
  have hw₁ : BalancesWritten db db₁ [source] := updateBalanceChunk_ok hn (nodup_singleton _) h₁
  have hd₁ : db₁.findBalance destination.balanceID = some cd := by
    rw [findBalance,hw₁.written.kept _ (by simpa [cell] using hne.symm)]
    exact hd
  obtain ⟨db₂,h₂⟩ := updateBalance_exists hd₁ hdv
  have hw₂ : BalancesWritten db₁ db₂ [destination] := updateBalanceChunk_ok (hw₁.unique hn) (nodup_singleton _) h₂
  have hkeys : db₂.balances.map key = db.balances.map key := hw₂.written.keys.trans hw₁.written.keys
  have hrows : db₂.transactions = db.transactions := hw₂.transactions.trans hw₁.transactions
  have hclaims : db₂.refundClaims = db.refundClaims := hw₂.refundClaims.trans hw₁.refundClaims
  have hinsert : db₂.insertRow r = .ok { db₂ with transactions := db₂.transactions ++ [r], refundClaims := claims } := by
    apply insertRow_of_checks
    · rw [hrows,hclaims]
      exact hl
    · exact hrows.symm ▸ hid
    · exact hrows.symm ▸ href
    · rw [isSome_findBalance,hkeys,← isSome_findBalance]
      exact hrs
    · rw [isSome_findBalance,hkeys,← isSome_findBalance]
      exact hrd
  refine ⟨{ db₂ with transactions := db₂.transactions ++ [r], refundClaims := claims },?_,congrArg (· ++ [r]) hrows,rfl,
    hw₁.written.append hw₂.written fun w hw hmem => ?_⟩
  · rw [recordTransactionWithBalances,h₁]
    change (db₁.updateBalance destination >>= fun db => db.recordTransaction t) = _
    rw [h₂]
    change db₂.recordTransaction t = _
    rw [recordTransaction,hrow]
    exact hinsert
  · obtain rfl := mem_singleton.mp hw
    exact hne (mem_singleton.mp hmem)

end Database
end LedgerForge
