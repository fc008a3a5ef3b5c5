import LedgerForge.Engine.GroupLinks

/-! # A coalesced batch against single executions

A batch works on one copy of each balance and writes it once, while single executions load and write their two
balances one after the other. The batch state mirrors the database that the single executions of the finalised
transactions have left, up to versions, as long as no transaction has one balance on both of its sides.
-/

namespace LedgerForge

open VersionedStore List Balance Keyed Legs Transaction Database

def Mirrors (bs : List Balance) (db : Database) : Prop :=
  ∀ id b, find balanceID bs id = some b →
    b.queuedDebitBalance = none ∧ ∃ c, db.findBalance id = some c ∧ c.value = b.cell.value

namespace Database

def recordSequentially (db : Database) (ts : List Transaction) : Except String Database :=
  ts.foldlM (fun db t => db.recordTransactionSingle t true none) db

end Database

variable {db db' : Database} {existing : String → Bool} {st st' : BatchState} {t : Transaction}

theorem Mirrors.loaded {bs : List Balance} (h : Mirrors bs db) {id : String} {b : Balance}
    (hb : find balanceID bs id = some b) :
    ∃ c, db.findBalance id = some c ∧ loadBalance c none = { b with version := c.version } := by
  obtain ⟨hqueued,c,hc,hvalue⟩ := h id b hb
  have hkey : c.key = id := find_key hc
  exact ⟨c,hc,by simp only [loadBalance,hkey.trans (find_key hb).symm,hvalue,Balance.cell,← hqueued]⟩

/-- One transaction of a batch between two balances, written out. -/
theorem prepareQueuedBatchTransaction_legs (ht : canCoalesceQueuedTransaction t = .ok ()) (hne : t.source ≠ t.destination)
    (h : prepareQueuedBatchTransaction existing st t = .ok st') :
    ∃ source destination, find balanceID st.balances t.source = some source ∧
      find balanceID st.balances t.destination = some destination ∧
      (mk t source destination).updateBalances = (none,(mk t source destination).posted t.resolvedAmount) ∧
      st'.balances = replaceBalance (replaceBalance st.balances ((mk t source destination).posted t.resolvedAmount).source)
        ((mk t source destination).posted t.resolvedAmount).destination ∧
      st'.finalized = st.finalized ++ [t.executed source destination t.resolvedAmount] := by
  obtain ⟨hstatus,-⟩ := canCoalesceQueuedTransaction_ok ht
  obtain ⟨source,destination,applied,final,hs,hd,-,happly,hwork,hfinalized,-⟩ := prepareQueuedBatchTransaction_iff.mp h
  have hdistinct : source.balanceID ≠ destination.balanceID := by
    rw [find_key hs,find_key hd]
    exact hne
  obtain ⟨hv,hc⟩ := updateTransactionDetails_plain hstatus source destination
  rw [applyToShared,if_neg hdistinct,applyTransactionToBalances_plain hv hc] at happly
  split at happly
  · cases happly
  rename_i l hl
  obtain ⟨hvalid,hfunds,rfl⟩ := updateBalances_none.mp hl
  obtain ⟨rfl,hbalances⟩ := Prod.mk.inj (Except.ok.inj happly)
  have hpos := (validate_ok hvalid).2.1
  obtain rfl : t.executed source destination t.resolvedAmount = final :=
    (Prod.mk.inj ((buildTransactionExecutionWork_finalised hstatus source destination hpos.ne').symm.trans hwork)).1
  exact ⟨source,destination,hs,hd,updateBalances_none.mpr ⟨hvalid,hfunds,rfl⟩,hbalances.symm,hfinalized⟩

/-- Writing both legs of a posting keeps the mirror. -/
theorem Mirrors.posted {bs : List Balance} (h : Mirrors bs db)
    {source destination : Balance} {cs cd : StoredBalance} {a : ℤ}
    (hs : find balanceID bs t.source = some source)
    (hd : find balanceID bs t.destination = some destination)
    (hcs : loadBalance cs none = { source with version := cs.version })
    (hcd : loadBalance cd none = { destination with version := cd.version })
    (hw : Written db.balances db'.balances [((mk t (loadBalance cs none) (loadBalance cd none)).posted a).source.cell,
      ((mk t (loadBalance cs none) (loadBalance cd none)).posted a).destination.cell]) :
    Mirrors (replaceBalance (replaceBalance bs ((mk t source destination).posted a).source)
      ((mk t source destination).posted a).destination) db' := by
  have hsv : ((mk t (loadBalance cs none) (loadBalance cd none)).posted a).source.cell.value =
      ((mk t source destination).posted a).source.cell.value := by
    rw [hcs,hcd,Legs.posted,Legs.posted]
    cases t.inflight <;> rfl
  have hdv : ((mk t (loadBalance cs none) (loadBalance cd none)).posted a).destination.cell.value =
      ((mk t source destination).posted a).destination.cell.value := by
    rw [hcs,hcd,Legs.posted,Legs.posted]
    cases t.inflight <;> rfl
  have hsm := moved_addDebit source a t.inflight
  have hdm := moved_addCredit destination a t.inflight
  have hsid : ((mk t source destination).posted a).source.balanceID = t.source := hsm.balanceID.trans (find_key hs)
  have hdid : ((mk t source destination).posted a).destination.balanceID = t.destination :=
    hdm.balanceID.trans (find_key hd)
  have hskey : ((mk t (loadBalance cs none) (loadBalance cd none)).posted a).source.cell.key = t.source := by
    refine (moved_addDebit (loadBalance cs none) a t.inflight).balanceID.trans ?_
    rw [hcs,← find_key hs]
  have hdkey : ((mk t (loadBalance cs none) (loadBalance cd none)).posted a).destination.cell.key = t.destination := by
    refine (moved_addCredit (loadBalance cd none) a t.inflight).balanceID.trans ?_
    rw [hcd,← find_key hd]
  intro id b hb
  have hmem : id ∈ bs.map balanceID := by
    rw [← replaceBalance_ids bs ((mk t source destination).posted a).source,
      ← replaceBalance_ids _ ((mk t source destination).posted a).destination,← find_key hb]
    exact mem_map_of_mem (find_mem hb)
  obtain ⟨b₀,hb₀⟩ := exists_find hmem
  rw [find_replaceBalance (find_replaceBalance hb₀),hsid,hdid] at hb
  cases hb
  by_cases hid : id = t.destination
  · subst hid
    rw [if_pos rfl]
    have hwritten := hw.written _ (mem_cons_of_mem _ mem_cons_self)
    rw [hdkey] at hwritten
    exact ⟨hdm.queued.trans (h _ _ hd).1,_,hwritten,hdv⟩
  · rw [if_neg hid]
    by_cases hid' : id = t.source
    · subst hid'
      rw [if_pos rfl]
      have hwritten := hw.written _ mem_cons_self
      rw [hskey] at hwritten
      exact ⟨hsm.queued.trans (h _ _ hs).1,_,hwritten,hsv⟩
    · rw [if_neg hid']
      obtain ⟨hqueued,c,hc,hvalue⟩ := h id b₀ hb₀
      refine ⟨hqueued,c,?_,hvalue⟩
      rw [findBalance,hw.kept]
      · exact hc
      · simp only [map_cons,map_nil,hskey,hdkey,mem_cons,not_mem_nil,or_false,not_or]
        exact ⟨hid',hid⟩

/-- What one transaction of a batch does to the mirrored database when it is executed alone. -/
structure SingleStep (bs bs' : List Balance) (t : Transaction) (db mid db' : Database) : Prop where
  recorded : db.recordTransactionSingle t true none = .ok db'
  transactions : db'.transactions = mid.transactions
  refundClaims : db'.refundClaims = mid.refundClaims
  unique : db'.UniqueBalances
  mirrors : Mirrors bs' db'
  kept : ∀ id, id ∉ bs.map balanceID → db'.findBalance id = db.findBalance id
  ids : bs'.map balanceID = bs.map balanceID

/-- A transaction that the batch has prepared and whose row was inserted is executed alone as well. -/
theorem Mirrors.single {mid mid' : Database} {r : Row}
    (h : Mirrors st.balances db) (hn : db.UniqueBalances) (ht : canCoalesceQueuedTransaction t = .ok ())
    (hne : t.source ≠ t.destination) (hprepared : prepareQueuedBatchTransaction existing st t = .ok st')
    (hr : ∀ final, st'.finalized = st.finalized ++ [final] → StoredAs final r)
    (hinserted : Inserted mid mid' r) (hrows : mid.transactions = db.transactions)
    (hclaims : mid.refundClaims = db.refundClaims) : ∃ db', SingleStep st.balances st'.balances t db mid' db' := by
  obtain ⟨source,destination,hs,hd,hlegs,hbalances,hfinalized⟩ := prepareQueuedBatchTransaction_legs ht hne hprepared
  obtain ⟨hvalid,hfunds,-⟩ := updateBalances_none.mp hlegs
  obtain ⟨hfields,hpos,hkept⟩ := validate_ok hvalid
  obtain ⟨hstatus,haction⟩ := canCoalesceQueuedTransaction_ok ht
  have hplain : t.status ≠ .void ∧ t.status ≠ .commit := by
    rw [hstatus]
    decide
  obtain ⟨cs,hcs,hloadS⟩ := h.loaded hs
  obtain ⟨cd,hcd,hloadD⟩ := h.loaded hd
  have happly : (mk t (loadBalance cs none) (loadBalance cd none)).applyTransactionToBalances =
      (none,(mk t (loadBalance cs none) (loadBalance cd none)).posted t.resolvedAmount) := by
    rw [applyTransactionToBalances_plain hplain.1 hplain.2]
    refine updateBalances_none.mpr ⟨hvalid,?_,rfl⟩
    rw [hloadS]
    exact hfunds
  obtain ⟨a,happlied⟩ := applied_of_none happly
  obtain rfl : t.resolvedAmount = a := Option.some.inj happlied.amount
  have hamount : (t.executed source destination t.resolvedAmount).preciseAmount = some t.resolvedAmount := by
    simp [executed,hstatus,materialise,convertPreciseToDecimal,
      clearTerminalInflightMetadata]
  obtain ⟨p,hposted⟩ := postedAs_of_stored (find_key hs) (find_key hd) hpos hkept (fun _ => hfields) hamount
    (hr _ hfinalized)
  have hzero : t.isZeroPreciseAmount = false := by
    rw [isZeroPreciseAmount]
    cases hp : t.preciseAmount with
    | none => rfl
    | some x => exact decide_eq_false (not_le.mpr (hkept x hp ▸ hpos))
  have hreference : db.referenceExists t.reference = false := by
    rw [referenceExists,any_eq_false]
    intro x hx he
    refine hinserted.freshReference x (hrows ▸ hx) ((of_decide_eq_true he).trans ?_)
    rw [hposted.row]
    rfl
  have hlifecycle : claimTransactionLifecycle db.transactions db.refundClaims (t.postedRow t.resolvedAmount p) =
      .ok mid'.refundClaims := by
    rw [← hrows,← hclaims,← hposted.row]
    exact hinserted.lifecycle
  have hid : ∀ x ∈ db.transactions, x.transactionID ≠ t.transactionID := by
    intro x hx he
    refine hinserted.freshID x (hrows ▸ hx) (he.trans ?_)
    rw [hposted.row]
    rfl
  obtain ⟨db',hrecorded,htransactions,hclaims',hwritten⟩ := recordTransactionSingle_exists true hn hreference hcs hcd hne
    hzero happly happlied hposted.text hposted.precision hposted.range.1 hposted.range.2 hlifecycle hid
  have hids : st'.balances.map balanceID = st.balances.map balanceID := by
    rw [hbalances,replaceBalance_ids,replaceBalance_ids]
  refine ⟨db',hrecorded,?_,hclaims',?_,?_,fun id hnot => ?_,hids⟩
  · rw [htransactions,hinserted.transactions,hrows,hposted.row]
  · rw [UniqueBalances,hwritten.keys]
    exact hn
  · rw [hbalances]
    exact h.posted hs hd hloadS hloadD hwritten
  · rw [findBalance,hwritten.kept]
    · rfl
    · intro hmem
      have hskey := happlied.source.balanceID.trans (loadBalance_id hcs none)
      have hdkey := happlied.destination.balanceID.trans (loadBalance_id hcd none)
      simp only [map_cons,map_nil,mem_cons,not_mem_nil,or_false] at hmem
      have hside : id = t.source ∨ id = t.destination := hmem.imp (·.trans hskey) (·.trans hdkey)
      apply hnot
      rcases hside with rfl | rfl
      · exact find_key hs ▸ mem_map_of_mem (find_mem hs)
      · exact find_key hd ▸ mem_map_of_mem (find_mem hd)

variable {ts : List Transaction}

theorem batchLoop_appends (hts : ∀ t ∈ ts, canCoalesceQueuedTransaction t = .ok ()) (hne : ∀ t ∈ ts, t.source ≠ t.destination)
    (h : ts.foldlM (prepareQueuedBatchTransaction existing) st = .ok st') :
    ∃ finals, st'.finalized = st.finalized ++ finals := by
  induction ts generalizing st with
  | nil =>
    cases h
    exact ⟨[],(append_nil _).symm⟩
  | cons t ts ih =>
    obtain ⟨mid,hmid,hrest⟩ := bind_ok h
    rw [forall_mem_cons] at hts hne
    obtain ⟨_,_,-,-,-,-,hfinal⟩ := prepareQueuedBatchTransaction_legs hts.1 hne.1 hmid
    obtain ⟨finals,hfinals⟩ := ih hts.2 hne.2 hrest
    exact ⟨_,by rw [hfinals,hfinal,append_assoc]⟩

/-- The single executions of a batch whose rows were inserted. -/
theorem Mirrors.sequential {finals : List Transaction} {rows : List Row}
    {mid : Database} (h : Mirrors st.balances db) (hn : db.UniqueBalances)
    (hts : ∀ t ∈ ts, canCoalesceQueuedTransaction t = .ok ()) (hne : ∀ t ∈ ts, t.source ≠ t.destination)
    (hprepared : ts.foldlM (prepareQueuedBatchTransaction existing) st = .ok st')
    (hfinals : st'.finalized = st.finalized ++ finals) (hstored : List.Forall₂ StoredAs finals rows)
    (hinserted : InsertedAll mid rows db') (hrows : mid.transactions = db.transactions)
    (hclaims : mid.refundClaims = db.refundClaims) :
    ∃ seq, db.recordSequentially ts = .ok seq ∧ seq.transactions = db'.transactions ∧
      seq.refundClaims = db'.refundClaims ∧ Mirrors st'.balances seq ∧
      ∀ id, id ∉ st.balances.map balanceID → seq.findBalance id = db.findBalance id := by
  induction ts generalizing st finals rows db mid with
  | nil =>
    cases hprepared
    obtain rfl : finals = [] := append_right_eq_self.mp hfinals.symm
    cases hstored
    cases hinserted
    exact ⟨db,rfl,hrows.symm,hclaims.symm,h,fun _ _ => rfl⟩
  | cons t ts ih =>
    obtain ⟨st₁,hfirst,hrest⟩ := bind_ok hprepared
    rw [forall_mem_cons] at hts hne
    obtain ⟨source,destination,-,-,-,-,hfinal⟩ := prepareQueuedBatchTransaction_legs hts.1 hne.1 hfirst
    obtain ⟨finals',hfinals'⟩ := batchLoop_appends hts.2 hne.2 hrest
    obtain rfl : finals = t.executed source destination t.resolvedAmount :: finals' := by
      rw [hfinals',hfinal,append_assoc] at hfinals
      exact (append_cancel_left hfinals).symm
    cases hstored with
    | @cons _ r _ rows hr hstored =>
      cases hinserted with
      | @cons _ mid₁ _ _ _ head tail =>
        have hone : ∀ final, st₁.finalized = st.finalized ++ [final] → StoredAs final r := by
          intro final he
          rw [hfinal] at he
          exact singleton_injective (append_cancel_left he) ▸ hr
        obtain ⟨db₁,hstep⟩ := h.single hn hts.1 hne.1 hfirst hone head hrows hclaims
        obtain ⟨seq,hseq,htransactions,hclaims',hmirrors,hkept⟩ := ih hstep.mirrors hstep.unique hts.2 hne.2 hrest hfinals' hstored
          tail hstep.transactions.symm hstep.refundClaims.symm
        refine ⟨seq,?_,htransactions,hclaims',hmirrors,fun id hid => ?_⟩
        · rw [recordSequentially,foldlM_cons,hstep.recorded]
          exact hseq
        · rw [hkept id (hstep.ids ▸ hid),hstep.kept id hid]

theorem distinct_of_sequential {seq : Database} (hn : db.UniqueBalances)
    (hts : ∀ t ∈ ts, canCoalesceQueuedTransaction t = .ok ()) (hpos : ∀ t ∈ ts, t.isZeroPreciseAmount = false)
    (h : db.recordSequentially ts = .ok seq) : ∀ t ∈ ts, t.source ≠ t.destination := by
  induction ts generalizing db with
  | nil => exact fun _ ht => absurd ht not_mem_nil
  | cons t ts ih =>
    obtain ⟨db₁,hfirst,hrest⟩ := bind_ok h
    rw [forall_mem_cons] at hts hpos ⊢
    obtain ⟨hstatus,haction⟩ := canCoalesceQueuedTransaction_ok hts.1
    have hpostable : t.Postable := by
      rw [Transaction.Postable,hstatus]
      exact haction
    cases recordTransactionSingle_ok hn hpostable hfirst with
    | dropped unqueued => cases unqueued
    | rejected _ zero =>
      rw [hpos.1] at zero
      cases zero
    | posted stored distinct posted =>
      refine ⟨distinct,ih ?_ hts.2 hpos.2 hrest⟩
      rw [UniqueBalances,posted.keys]
      exact hn

/-- Two databases that differ in the versions of their balances at most. -/
structure SameUpToVersions (db db' : Database) : Prop where
  transactions : db.transactions = db'.transactions
  refundClaims : db.refundClaims = db'.refundClaims
  balances : ∀ id, (db.findBalance id).map Cell.value = (db'.findBalance id).map Cell.value

open Database Engine

/-- What a committed batch was made from: balances loaded once, prepared transactions, one write and the rows. -/
structure BatchCommit (db : Database) (ts : List Transaction) (db' : Database) where
  loaded : List Balance
  st : BatchState
  mid : Database
  rows : List Row
  ids : loaded.map balanceID = collectQueuedCoalescingBalanceIDs ts
  mirrors : Mirrors loaded db
  prepared : ts.foldlM (prepareQueuedBatchTransaction db.referenceExists) ⟨loaded,[],[]⟩ = .ok st
  finalised : List.Forall₂ Finalised ts st.finalized
  balances : st.balances.map balanceID = loaded.map balanceID
  written : BalancesWritten db mid st.balances
  stored : List.Forall₂ StoredAs st.finalized rows
  inserted : InsertedAll mid rows db'

theorem persistQueuedTransactionBatch_ok (hn : db.UniqueBalances)
    (hts : ∀ t ∈ ts, canCoalesceQueuedTransaction t = .ok ())
    (h : db.persistQueuedTransactionBatch ts (fun _ => none) = .ok db') : Nonempty (BatchCommit db ts db') := by
  obtain ⟨loaded,hloaded,h⟩ := bind_ok h
  obtain ⟨st,hst,h⟩ := bind_ok h
  obtain ⟨mid,hmid,h⟩ := bind_ok h
  obtain ⟨rows,hstored,hinserted⟩ := recordTransactions_ok h
  obtain ⟨hids,hreads⟩ := loadBalancesForQueuedBatch_ok hloaded
  obtain ⟨hnodup,hnonempty⟩ := collectQueuedCoalescingBalanceIDs_spec ts
  obtain ⟨hmoved,hfinalised⟩ := prepareQueuedBatch_ok hts hst
  obtain ⟨_,-,hprepared⟩ := bind_ok hst
  have hmirrors : Mirrors loaded db := by
    intro id b hb
    obtain ⟨c,hc,hread⟩ := hreads b (find_mem hb)
    rw [find_key hb] at hc
    exact ⟨by rw [hread]; rfl,c,hc,by rw [hread]; rfl⟩
  have hwritten := updateBalanceSet_ok hn hmid
  have hne : ∀ b ∈ st.balances, b.balanceID ≠ "" := by
    intro b hb
    apply hnonempty
    rw [← hids,← hmoved.ids]
    exact mem_map_of_mem hb
  rw [uniqueBalances_of_nodup (by rw [hmoved.ids,hids]; exact hnodup) hne] at hwritten
  exact ⟨⟨loaded,st,mid,rows,hids,hmirrors,hprepared,hfinalised,hmoved.ids,hwritten,hstored,hinserted⟩⟩

theorem BatchCommit.nonzero (h : BatchCommit db ts db') :
    ∀ t ∈ ts, t.isZeroPreciseAmount = false := by
  have hall : ∀ {ts finals : List Transaction}, List.Forall₂ Finalised ts finals → ∀ t ∈ ts, t.isZeroPreciseAmount = false := by
    intro ts finals hf
    induction hf with
    | nil => exact fun _ ht => absurd ht not_mem_nil
    | @cons t final ts finals head _ ih =>
      refine forall_mem_cons.mpr ⟨?_,ih⟩
      obtain ⟨_,_,a,-,-,hpos,hkept,-⟩ := head.executed
      rw [isZeroPreciseAmount]
      cases hp : t.preciseAmount with
      | none => rfl
      | some x => exact decide_eq_false (not_le.mpr (hkept x hp ▸ hpos))
  exact hall h.finalised

theorem BatchCommit.sequential (h : BatchCommit db ts db')
    (hn : db.UniqueBalances) (hts : ∀ t ∈ ts, canCoalesceQueuedTransaction t = .ok ())
    (hne : ∀ t ∈ ts, t.source ≠ t.destination) :
    ∃ seq, db.recordSequentially ts = .ok seq ∧ SameUpToVersions seq db' := by
  obtain ⟨seq,hseq,hrows,hclaims,hmirrors,hkept⟩ := h.mirrors.sequential hn hts hne h.prepared (nil_append _).symm
    h.stored h.inserted h.written.transactions h.written.refundClaims
  refine ⟨seq,hseq,hrows,hclaims,fun id => ?_⟩
  have hstored : db'.findBalance id = lookup h.mid.balances id := by rw [findBalance,h.inserted.balances]
  by_cases hid : id ∈ h.st.balances.map balanceID
  · obtain ⟨b,hb⟩ := exists_find hid
    obtain ⟨-,c,hc,hvalue⟩ := hmirrors id b hb
    have hwritten := h.written.written.written b.cell (mem_map_of_mem (find_mem hb))
    have hkey : b.balanceID = id := find_key hb
    rw [show b.cell.key = id from hkey] at hwritten
    rw [hc,hstored,hwritten,Option.map_some,Option.map_some,hvalue]
  · have hother : id ∉ (h.st.balances.map cell).map Cell.key := by
      rw [map_map]
      exact hid
    rw [hkept id (h.balances ▸ hid),hstored,h.written.written.kept id hother]
    rfl

/-- A batch that commits leaves what the single executions of its members leave exactly when no member has one
balance on both sides; a batch without such members persists nothing if a member would be refused at its turn. -/
theorem batch_refines_single {db : Database} (hn : db.UniqueBalances) (ts : List Transaction)
    (hts : ∀ t ∈ ts, canCoalesceQueuedTransaction t = .ok ()) :
    (∀ db', db.persistQueuedTransactionBatch ts (fun _ => none) = .ok db' →
      ((∃ seq, db.recordSequentially ts = .ok seq ∧ SameUpToVersions seq db') ↔ ∀ t ∈ ts, t.source ≠ t.destination)) ∧
    ((∀ t ∈ ts, t.source ≠ t.destination) → ∀ before t after mid e, ts = before ++ t :: after →
      db.recordSequentially before = .ok mid → mid.recordTransactionSingle t true none = .error e →
      ∃ e', db.persistQueuedTransactionBatch ts (fun _ => none) = .error e') := by
  refine ⟨fun db' h => ?_,fun hne before t after mid e hsplit hbefore hrefused => ?_⟩
  · obtain ⟨hcommit⟩ := persistQueuedTransactionBatch_ok hn hts h
    constructor
    · rintro ⟨seq,hseq,-⟩
      exact distinct_of_sequential hn hts hcommit.nonzero hseq
    · exact hcommit.sequential hn hts
  · cases hbatch : db.persistQueuedTransactionBatch ts (fun _ => none) with
    | error e' => exact ⟨e',rfl⟩
    | ok db' =>
      obtain ⟨hcommit⟩ := persistQueuedTransactionBatch_ok hn hts hbatch
      obtain ⟨seq,hseq,-⟩ := hcommit.sequential hn hts hne
      rw [hsplit,recordSequentially,foldlM_append] at hseq
      obtain ⟨x,hx,hrest⟩ := bind_ok hseq
      cases hbefore.symm.trans hx
      obtain ⟨y,hy,-⟩ := bind_ok hrest
      cases hrefused.symm.trans hy

open Engine

theorem collectQueuedCoalescingBalanceIDs_eq {ids : List String}
    (h : ((ts.flatMap fun t => [t.source,t.destination]).filter (· ≠ "")).dedup = ids)
    (hs : ids.Pairwise fun a b => a ≤ b) : collectQueuedCoalescingBalanceIDs ts = ids := by
  rw [collectQueuedCoalescingBalanceIDs,h]
  apply mergeSort_of_pairwise
  simpa using hs

/-- Two queued transfers between the given balances, with the copies that a batch executes. -/
def twoTransfers (source destination : String) : List Operation :=
  [.createBalance "bln_a" "USD",.createBalance "bln_b" "USD",
    .post { transferRequest "x" 60 with source := source, destination := destination } none "txn_1" "txn_2" none,
    .post { transferRequest "y" 40 with source := source, destination := destination } none "txn_3" "txn_4" none]

theorem two_transfers_refine : ∃ db', (run (twoTransfers "bln_a" "bln_b")).database.persistQueuedTransactionBatch
    (run (twoTransfers "bln_a" "bln_b")).queue (fun _ => none) = .ok db' ∧
    ∃ seq, (run (twoTransfers "bln_a" "bln_b")).database.recordSequentially (run (twoTransfers "bln_a" "bln_b")).queue =
      .ok seq ∧ SameUpToVersions seq db' := by
  have hcommits : ((run (twoTransfers "bln_a" "bln_b")).database.persistQueuedTransactionBatch
      (run (twoTransfers "bln_a" "bln_b")).queue (fun _ => none)).isOk = true := by
    have hids : collectQueuedCoalescingBalanceIDs (run (twoTransfers "bln_a" "bln_b")).queue = ["bln_a","bln_b"] :=
      collectQueuedCoalescingBalanceIDs_eq (by decide +kernel) (by decide)
    rw [persistQueuedTransactionBatch,hids]
    decide +kernel
  cases hbatch : (run (twoTransfers "bln_a" "bln_b")).database.persistQueuedTransactionBatch
      (run (twoTransfers "bln_a" "bln_b")).queue (fun _ => none) with
  | error e =>
    rw [hbatch] at hcommits
    cases hcommits
  | ok db' =>
    refine ⟨db',rfl,?_⟩
    exact ((batch_refines_single (sound_run (twoTransfers "bln_a" "bln_b")).accounted.unique _ (by decide +kernel)).1 db'
      hbatch).mpr (by decide +kernel)

/-- Two transfers between a balance and itself commit as a batch and are refused one by one. -/
theorem self_transfers_commit_only_as_batch :
    let e := run (twoTransfers "bln_a" "bln_a")
    (∀ t ∈ e.queue, canCoalesceQueuedTransaction t = .ok ()) ∧ e.queue.length = 2 ∧
    (e.database.persistQueuedTransactionBatch e.queue (fun _ => none)).isOk = true ∧
    ∀ t ∈ e.queue, e.database.recordTransactionSingle t true none = .error (conflictMessage "bln_a") := by
  decide +kernel

end LedgerForge
