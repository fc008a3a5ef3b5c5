import LedgerForge.Storage.Statements

/-! # What one execution leaves in the database

A single transaction works on its own copies of two balances, a coalesced batch on one shared copy per balance. A
persisted posting appends its rows and moves every stored balance by what those rows replay to.
-/

namespace LedgerForge

open Database Balance

namespace Transaction

/-- The stored status of an executed transaction; a status outside the table becomes empty. -/
def applicableStatus : Status → Status
  | .queued => .applied
  | .applied => .applied
  | .scheduled => .applied
  | .commit => .applied
  | .void => .void
  | _ => .other ""

def updateTransactionDetails (t : Transaction) (source destination : Balance) : Transaction :=
  { t with source := source.balanceID, destination := destination.balanceID,
           status := if t.inflight then .inflight else applicableStatus t.status }

def clearTerminalInflightMetadata (t : Transaction) : Transaction :=
  { t with inflight := if t.status = .inflight then t.inflight else false }

def isZeroPreciseAmount (t : Transaction) : Bool :=
  match t.preciseAmount with
  | none => false
  | some a => a ≤ 0

/-- The transaction to persist; true when nothing is persisted because the amount is zero. -/
def buildTransactionExecutionWork (t : Transaction) (source destination : Balance) : Transaction × Bool :=
  let t := t.updateTransactionDetails source destination
  if t.preciseAmount = some 0 then (t,true) else (t.clearTerminalInflightMetadata,false)

end Transaction

/-- Outcome of preparing one transaction. -/
inductive Prepared
  | persist (work : Legs)
  | zero (transaction : Transaction)
deriving DecidableEq

def prepareSingle (t : Transaction) (source destination : Balance) : Except String Prepared :=
  let t := { t with source := source.balanceID, destination := destination.balanceID }
  if t.isZeroPreciseAmount then .ok (.zero t)
  else match (Legs.mk t source destination).applyTransactionToBalances with
    | (some e,_) => .error ("failed to apply transaction to balances: " ++ e)
    | (none,l) => match l.transaction.buildTransactionExecutionWork l.source l.destination with
      | (t,true) => .ok (.zero t)
      | (t,false) => .ok (.persist ⟨t,l.source,l.destination⟩)

def canCoalesceQueuedOriginal (t : Transaction) : Except String Unit :=
  if !t.overdraftLimit.isZero then .error "capped_overdraft"
  else if t.queueAction ≠ .unset then .error "lifecycle_action"
  else if t.status ≠ .queued then .error "status_not_queued"
  else if t.atomic then .error "atomic_transaction"
  else if t.skipQueue then .error "skip_queue_enabled"
  else if t.scheduled then .error "scheduled_transaction"
  else if t.source = "" ∨ t.destination = "" ∨ t.currency = "" then .error "missing_pair_or_currency"
  else .ok ()

def canCoalesceQueuedTransaction (t : Transaction) : Except String Unit :=
  if t.parentTransaction = "" then .error "missing_parent_transaction" else canCoalesceQueuedOriginal t

def validateQueuedBatchCurrencies : List Transaction → Except String Unit
  | [] => .ok ()
  | t :: ts => if ts.all fun u => u.currency = t.currency then .ok ()
    else .error "coalescing batch contains multiple currencies"

/-- The balances a batch touches, without repetition and sorted. -/
def collectQueuedCoalescingBalanceIDs (ts : List Transaction) : List String :=
  ((ts.flatMap fun t => [t.source,t.destination]).filter (· ≠ "")).dedup.mergeSort (· ≤ ·)

/-- `UpdateBalances` with one balance on both legs: the credit lands on the debited balance. -/
def Transaction.updateSharedBalance (t : Transaction) (b : Balance) : Option String × Transaction × Balance :=
  match (Legs.mk t b b).updateBalances with
  | (some e,l) => (some e,l.transaction,l.source)
  | (none,l) =>
    (none,l.transaction,(l.source.addCredit (l.transaction.preciseAmount.getD 0) l.transaction.inflight).computeBalance
      l.transaction.inflight)

/-- The shared balances, the transactions finalised so far and their references. -/
structure BatchState where
  balances : List Balance
  finalized : List Transaction
  references : List String
deriving DecidableEq

def replaceBalance (bs : List Balance) (b : Balance) : List Balance :=
  bs.map fun c => if c.balanceID = b.balanceID then b else c

def applyToShared (bs : List Balance) (t : Transaction) (source destination : Balance) :
    Except String (Transaction × List Balance) :=
  if source.balanceID = destination.balanceID then
    match t.updateSharedBalance source with
    | (some e,_) => .error ("failed to apply transaction to balances: " ++ e)
    | (none,t,b) => .ok (t,replaceBalance bs b)
  else match (Legs.mk t source destination).applyTransactionToBalances with
    | (some e,_) => .error ("failed to apply transaction to balances: " ++ e)
    | (none,l) => .ok (l.transaction,replaceBalance (replaceBalance bs l.source) l.destination)

def validateQueuedBatchTransactionReference (existing : String → Bool) (used : List String) (t : Transaction) :
    Except String Unit :=
  if t.reference = "" then .error "reference is required"
  else if t.reference ∈ used ∨ existing t.reference = true then
    .error ("reference " ++ t.reference ++ " has already been used")
  else .ok ()

/-- One transaction of a batch. Its final status is set before the balances are touched, so it is
always applied as a plain posting or a hold. -/
def prepareQueuedBatchTransaction (existing : String → Bool) (st : BatchState) (t : Transaction) :
    Except String BatchState :=
  match Keyed.find balanceID st.balances t.source, Keyed.find balanceID st.balances t.destination with
  | none, _ => .error ("missing source balance " ++ t.source ++ " for coalesced transaction")
  | _, none => .error ("missing destination balance " ++ t.destination ++ " for coalesced transaction")
  | some source, some destination => do
    validateQueuedBatchTransactionReference existing st.references t
    let (applied,balances) ← applyToShared st.balances (t.updateTransactionDetails source destination) source destination
    match applied.buildTransactionExecutionWork source destination with
    | (_,true) => .error "batch coalescing does not support zero-amount transactions"
    | (final,false) => .ok ⟨balances,st.finalized ++ [final],st.references ++ [t.reference]⟩

def prepareQueuedBatch (existing : String → Bool) (ts : List Transaction) (balances : List Balance) :
    Except String BatchState := do
  validateQueuedBatchCurrencies ts
  ts.foldlM (prepareQueuedBatchTransaction existing) ⟨balances,[],[]⟩

open VersionedStore List Transaction

namespace Balance

theorem Moved.refl (b : Balance) : b.Moved b 0 := ⟨(add_zero _).symm,rfl,rfl,rfl,rfl,fun h => h⟩

theorem Moved.trans {a b c : Balance} {g g' : Counters} (h : a.Moved b g) (h' : b.Moved c g') : a.Moved c (g+g') :=
  ⟨by rw [h'.counters,h.counters,add_assoc],h'.balanceID.trans h.balanceID,h'.currency.trans h.currency,
    h'.version.trans h.version,h'.queued.trans h.queued,fun hc => h'.consistent (h.consistent hc)⟩

end Balance

def BalanceState.Consistent (s : BalanceState) : Prop :=
  s.balance = s.counters.credit-s.counters.debit ∧
    s.inflightBalance = s.counters.inflightCredit-s.counters.inflightDebit

namespace Transaction

/-- Transactions that execution is handed: requests and queue copies, commits and voids. -/
def Postable (t : Transaction) : Prop :=
  match t.status with
  | .queued => t.queueAction = .unset
  | .scheduled => t.queueAction = .unset
  | .applied => t.queueAction = .unset
  | .commit => t.queueAction = .commit ∧ t.inflight = false
  | .void => t.inflight = false
  | _ => False

def delta (t : Transaction) (id : String) : Counters := (t.columns (t.preciseAmount.getD 0) 0).delta id

/-- A transaction as it is persisted after execution with the given amount: a void keeps its monetary
fields, everything else stores the converted amount. -/
def executed (t : Transaction) (source destination : Balance) (amount : ℤ) : Transaction :=
  let money := if t.status = .void then t else t.materialise amount
  ({ t with source := source.balanceID, destination := destination.balanceID,
            amount := money.amount, amountString := money.amountString, preciseAmount := money.preciseAmount,
            precision := money.precision,
            status := if t.inflight then .inflight else applicableStatus t.status }).clearTerminalInflightMetadata

theorem movement_executed {t : Transaction} (h : t.Postable) (source destination : Balance) (a b p : ℤ) :
    ((t.executed source destination a).columns b p).movement = some t.movement := by
  rw [Postable] at h
  cases hstatus : t.status <;> rw [hstatus] at h <;> simp only at h <;> cases hi : t.inflight <;>
    simp_all [executed,columns,Row.movement,movement,materialise,convertPreciseToDecimal,
      clearTerminalInflightMetadata,applicableStatus]

end Transaction

variable {t : Transaction}

theorem Database.StoredAs.delta {r : Row} (h : StoredAs t r) (id : String) :
    r.delta id = t.delta id := by
  obtain ⟨a,p,ha,-,-,-,rfl⟩ := h.columns
  rw [Transaction.delta,ha]
  rfl

/-- What a successful preparation of one transaction leaves behind. -/
structure Executed (t : Transaction) (source destination : Balance) (work : Legs) (a : ℤ) : Prop where
  positive : 0 < a
  kept : ∀ p, t.preciseAmount = some p → p = a
  transaction : work.transaction = t.executed source destination a
  amount : work.transaction.preciseAmount = some a
  valid : t.status ≠ .void → t.validateMonetaryFields = .ok ()
  covered : t.movement.settles = true → a ≤ source.counters.inflightDebit ∧ a ≤ destination.counters.inflightCredit
  funded : t.status ≠ .void → t.status ≠ .commit → canProcessTransaction (t.materialise a) source = .ok ()
  source : source.Moved work.source (t.movement.debitSide a)
  destination : destination.Moved work.destination (t.movement.creditSide a)

variable {source destination : Balance}

theorem prepareSingle_persist {work : Legs}
    (h : prepareSingle t source destination = .ok (.persist work)) : ∃ a, Executed t source destination work a := by
  unfold prepareSingle at h
  simp only at h
  split at h
  · cases h
  split at h
  · cases h
  rename_i l hl
  obtain ⟨a,happlied⟩ := Legs.applied_of_none hl
  split at h
  · cases h
  rename_i final hfinal
  cases h
  rw [buildTransactionExecutionWork] at hfinal
  split at hfinal
  · cases hfinal
  obtain ⟨rfl,-⟩ := Prod.mk.injEq .. ▸ hfinal
  refine ⟨a,happlied.positive,happlied.kept,?_,happlied.amount,happlied.valid,happlied.covered,
    fun hv hc => ?_,happlied.source,happlied.destination⟩
  swap
  · exact happlied.funded hv hc
  simp only [executed,updateTransactionDetails,happlied.source.balanceID,
    happlied.destination.balanceID,happlied.transaction]
  split <;> rfl

theorem Transaction.delta_executed {a : ℤ} (hp : t.Postable)
    (hamount : (t.executed source destination a).preciseAmount = some a) (id : String) :
    (t.executed source destination a).delta id = (if source.balanceID = id then t.movement.debitSide a else 0)+
      (if destination.balanceID = id then t.movement.creditSide a else 0) := by
  rw [delta,hamount,Row.delta,movement_executed hp]
  rfl

/-- One database transaction of postings: the rows went through the insert checks one after the other
and every balance moved by what they replay to. -/
structure Posted (db db' : Database) (rows : List Row) : Prop where
  inserted : ∃ mid : Database, mid.transactions = db.transactions ∧ mid.refundClaims = db.refundClaims ∧
    InsertedAll mid rows db'
  keys : db'.balances.map Cell.key = db.balances.map Cell.key
  fresh : ∀ s, Fresh db.balances s → Fresh db'.balances s
  balances : ∀ id c, db.findBalance id = some c → ∃ c', db'.findBalance id = some c' ∧
    c'.value.counters = c.value.counters+replay rows id ∧ c'.value.currency = c.value.currency ∧
    (c.value.Consistent → c'.value.Consistent)

variable {db db' : Database}

theorem Posted.transactions {rows : List Row} (h : Posted db db' rows) :
    db'.transactions = db.transactions ++ rows := by
  obtain ⟨mid,hmid,-,hall⟩ := h.inserted
  rw [hall.transactions,hmid]

theorem Posted.refl (db : Database) : Posted db db [] :=
  ⟨⟨db,rfl,rfl,.nil _⟩,rfl,fun _ h => h,fun _ c hc => ⟨c,hc,(add_zero _).symm,rfl,fun h => h⟩⟩

theorem posted_of_written {mid : Database} (reads : List Balance) {writes : List Balance} {rows : List Row}
    (hfresh : ∀ b ∈ reads, Fresh db.balances b.cell) (hwritten : BalancesWritten db mid writes)
    (hids : writes.map balanceID = reads.map balanceID)
    (hmoved : ∀ b ∈ reads, ∃ w ∈ writes, b.Moved w (replay rows b.balanceID))
    (hother : ∀ id, id ∉ reads.map balanceID → replay rows id = 0)
    (hrows : InsertedAll mid rows db') : Posted db db' rows := by
  refine ⟨⟨mid,hwritten.transactions,hwritten.refundClaims,hrows⟩,?_,fun s hs => ?_,fun id c hc => ?_⟩
  · rw [hrows.balances,hwritten.written.keys]
  · rw [hrows.balances]
    exact hwritten.written.fresh hs
  · rw [findBalance,hrows.balances]
    by_cases hid : id ∈ reads.map balanceID
    · obtain ⟨b,hb,rfl⟩ := mem_map.mp hid
      obtain ⟨w,hw,hmove⟩ := hmoved b hb
      obtain ⟨hsaw,hnow⟩ := hwritten.written.saw (hfresh b hb) (mem_map_of_mem hw) hmove.balanceID hmove.version
      cases hsaw.symm.trans hc
      exact ⟨_,hnow,hmove.counters,hmove.currency,hmove.consistent⟩
    · have hkey : id ∉ (writes.map cell).map Cell.key := by
        rw [map_map]
        exact hids ▸ hid
      refine ⟨c,(hwritten.written.kept id hkey).trans hc,?_,rfl,fun h => h⟩
      rw [hother id hid,add_zero]

/-- Balances read at some time are written only if every one of them is still at its version. -/
def Unchanged (db : Database) (reads : List Balance) : Prop :=
  ∀ b ∈ reads, ∃ c, db.findBalance b.balanceID = some c ∧ c.version = b.version

theorem replay_singleton (r : Row) (id : String) : replay [r] id = r.delta id := zero_add _

/-- The two updates and the insert of a single posting. Two fresh copies of one balance cannot both be
written, because the first write moves the version past the second copy. -/
theorem recordTransactionWithBalances_posted
    {work : Legs} {a : ℤ} (hn : db.UniqueBalances) (hs : Fresh db.balances source.cell)
    (hd : Fresh db.balances destination.cell) (hex : Executed t source destination work a) (hp : t.Postable)
    (h : db.recordTransactionWithBalances work.transaction work.source work.destination = .ok db') :
    source.balanceID ≠ destination.balanceID ∧ Unchanged db [source,destination] ∧
      ∃ r, StoredAs work.transaction r ∧ Posted db db' [r] := by
  obtain ⟨mid₁,hfirst,h⟩ := bind_ok h
  obtain ⟨mid₂,hsecond,h⟩ := bind_ok h
  obtain ⟨r,hr,hinsert⟩ := recordTransaction_ok h
  have hw₁ := updateBalanceChunk_ok hn (by simp) hfirst
  have hw₂ := updateBalanceChunk_ok (hw₁.unique hn) (by simp) hsecond
  have hne : source.balanceID ≠ destination.balanceID := by
    intro heq
    obtain ⟨c,hc,hv⟩ := hw₂.written.matched work.destination.cell (by simp)
    have hkey : work.destination.cell.key = destination.cell.key := hex.destination.balanceID
    refine hw₁.written.stale hd (w := work.source.cell) (by simp) ?_ c (hkey ▸ hc) ?_
    · exact hex.source.balanceID.trans heq
    · exact hv.trans hex.destination.version
  have hwritten : BalancesWritten db mid₂ [work.source,work.destination] := by
    refine ⟨hw₁.written.append hw₂.written fun w hw hmem => ?_,hw₂.transactions.trans hw₁.transactions,
      hw₂.refundClaims.trans hw₁.refundClaims⟩
    obtain rfl := mem_singleton.mp hw
    have hmem : work.source.balanceID = work.destination.balanceID := mem_singleton.mp hmem
    rw [hex.source.balanceID,hex.destination.balanceID] at hmem
    exact hne hmem
  have hdelta : ∀ id, replay [r] id = (if source.balanceID = id then t.movement.debitSide a else 0)+
      (if destination.balanceID = id then t.movement.creditSide a else 0) := by
    intro id
    have hamount := hex.amount
    rw [hex.transaction] at hamount
    rw [replay_singleton,hr.delta,hex.transaction,delta_executed hp hamount]
  refine ⟨hne,fun b hb => ?_,r,hr,posted_of_written [source,destination] ?_ hwritten ?_ ?_ ?_ (.cons hinsert (.nil _))⟩
  · have hmatched := hwritten.written.matched
    rcases mem_cons.mp hb with rfl | hb
    · obtain ⟨c,hc,hv⟩ := hmatched work.source.cell (by simp)
      exact ⟨c,hex.source.balanceID ▸ hc,hex.source.version ▸ hv⟩
    rw [mem_singleton.mp hb]
    obtain ⟨c,hc,hv⟩ := hmatched work.destination.cell (by simp)
    exact ⟨c,hex.destination.balanceID ▸ hc,hex.destination.version ▸ hv⟩
  · intro b hb
    rcases mem_cons.mp hb with rfl | hb
    · exact hs
    · exact mem_singleton.mp hb ▸ hd
  · simp [hex.source.balanceID,hex.destination.balanceID]
  · intro b hb
    rcases mem_cons.mp hb with rfl | hb
    · refine ⟨work.source,by simp,?_⟩
      rw [hdelta,if_pos rfl,if_neg hne.symm,add_zero]
      exact hex.source
    · refine ⟨work.destination,by simp,?_⟩
      rw [mem_singleton.mp hb,hdelta,if_pos rfl,if_neg hne,zero_add]
      exact hex.destination
  · intro id hid
    simp only [map_cons,map_nil,mem_cons,not_mem_nil,or_false,not_or] at hid
    rw [hdelta,if_neg (Ne.symm hid.1),if_neg (Ne.symm hid.2),add_zero]

/-- Balance identifiers are distinct, every row names stored balances, and the stored counters are the
replay of the rows. -/
structure Database.Accounted (db : Database) : Prop where
  unique : db.UniqueBalances
  endpoints : ∀ r ∈ db.transactions, r.source ∈ db.balances.map Cell.key ∧ r.destination ∈ db.balances.map Cell.key
  replayed : ∀ id c, db.findBalance id = some c → c.value.counters = replay db.transactions id

namespace Database

theorem empty_accounted : empty.Accounted :=
  ⟨nodup_nil,fun _ h => absurd h not_mem_nil,fun _ _ h => by cases h⟩

theorem Accounted.posted {db' : Database} {rows : List Row} (h : db.Accounted) (hp : Posted db db' rows) :
    db'.Accounted := by
  refine ⟨?_,fun r hr => ?_,fun id c hc => ?_⟩
  · rw [UniqueBalances,hp.keys]
    exact h.unique
  · rw [hp.transactions] at hr
    rcases mem_append.mp hr with hr | hr
    · rw [hp.keys]
      exact h.endpoints r hr
    obtain ⟨mid,-,-,hall⟩ := hp.inserted
    obtain ⟨⟨s,hs⟩,d,hd⟩ := hall.endpoints r hr
    rw [hall.balances,← isSome_findBalance,← isSome_findBalance,hs,hd]
    exact ⟨rfl,rfl⟩
  · have hkey : id ∈ db.balances.map Cell.key := by
      rw [← hp.keys,← isSome_findBalance,hc]
      rfl
    obtain ⟨c₀,hc₀⟩ := Option.isSome_iff_exists.mp (isSome_findBalance.mpr hkey)
    obtain ⟨c',hc',hcounters,-⟩ := hp.balances id c₀ hc₀
    cases hc.symm.trans hc'
    rw [hcounters,h.replayed id c₀ hc₀,hp.transactions,replay_append]

theorem Inserted.posted {db' : Database} {r : Row} (hi : Inserted db db' r) (hr : r.movement = none) :
    Posted db db' [r] := by
  have hdelta : ∀ id, r.delta id = 0 := fun id => by rw [Row.delta,hr]
  refine ⟨⟨db,rfl,rfl,.cons hi (.nil _)⟩,?_,fun s hs => ?_,fun id c hc => ⟨c,?_,?_,rfl,fun hc => hc⟩⟩
  · rw [hi.balances]
  · rw [hi.balances]
    exact hs
  · rw [findBalance,hi.balances]
    exact hc
  · rw [replay_singleton,hdelta,add_zero]

theorem findBalance_createBalance {id : String} (hn : db.findBalance id = none) (currency k : String) :
    (db.createBalance id currency).findBalance k =
      if k = id then some ⟨id,1,⟨currency,0,0,0⟩⟩ else db.findBalance k := by
  rw [createBalance,hn]
  simp only [Option.isSome_none,Bool.false_eq_true,if_false,findBalance,VersionedStore.lookup,Keyed.find,List.find?_append]
  by_cases hk : k = id
  · subst hk
    have : (db.balances.find? fun x => decide (x.key = k)) = none := hn
    rw [this]
    simp
  · rw [if_neg hk]
    have : List.find? (fun x : StoredBalance => decide (x.key = k)) [⟨id,1,⟨currency,0,0,0⟩⟩] = none := by
      simp [Ne.symm hk]
    rw [this,Option.or_none]

theorem Accounted.createBalance (h : db.Accounted) (id currency : String) :
    (db.createBalance id currency).Accounted := by
  cases hn : db.findBalance id with
  | some c =>
    rw [Database.createBalance,hn]
    exact h
  | none =>
    have hnew : id ∉ db.balances.map Cell.key := fun hmem => by
      rw [← isSome_findBalance,hn] at hmem
      cases hmem
    have hbalances : (db.createBalance id currency).balances = db.balances ++ [⟨id,1,⟨currency,0,0,0⟩⟩] := by
      rw [Database.createBalance,hn]
      rfl
    have hrows : (db.createBalance id currency).transactions = db.transactions := by
      rw [Database.createBalance,hn]
      rfl
    refine ⟨?_,fun r hr => ?_,fun k c hc => ?_⟩
    · rw [UniqueBalances,hbalances,map_append,map_singleton,nodup_append_comm,singleton_append,
        nodup_cons]
      exact ⟨hnew,h.unique⟩
    · rw [hbalances,map_append,mem_append,mem_append]
      exact (h.endpoints r (hrows ▸ hr)).imp .inl .inl
    · rw [findBalance_createBalance hn] at hc
      rw [hrows]
      split at hc
      · rename_i hk
        cases hc
        rw [replay_eq_sum,hk]
        refine (sum_eq_zero fun x hx => ?_).symm
        obtain ⟨r,hr,rfl⟩ := mem_map.mp hx
        obtain ⟨hs,hd⟩ := h.endpoints r hr
        exact Row.delta_of_ne (fun he => hnew (he ▸ hs)) (fun he => hnew (he ▸ hd))
      · exact h.replayed k c hc

end Database
end LedgerForge
