import LedgerForge.Engine.GroupLinks
import LedgerForge.Engine.Reservations

/-! # Funds with queued checks

With queued checks on, a balance is loaded together with the total of the unresolved queued debits that
draw on it, and a posting without overdraft has to fit into what is left. The intent that is being executed
is itself in the total, so its own amount is asked for twice.
-/

namespace LedgerForge

open List Transaction Keyed Row

/-- Settled funds that no hold has reserved. -/
def Counters.free (k : Counters) : ℤ := k.credit-k.debit-k.inflightDebit

namespace Database

/-- A queued row that no child has carried out, rejected or voided. -/
def unresolved (db : Database) (t : Row) : Bool :=
  t.status = .queued && !db.transactions.any fun child => child.parentTransaction = t.transactionID &&
    (child.status = .applied || child.status = .rejected || child.status = .void || child.status = .inflight)

/-- The queued debit and credit of a balance; a transaction between a balance and itself is a debit only. -/
def getQueuedAmounts (db : Database) (balanceID : String) : ℤ × ℤ :=
  (((db.transactions.filter fun t => t.source = balanceID && db.unresolved t).map minor).sum,
    ((db.transactions.filter fun t => t.destination = balanceID && t.source ≠ balanceID && db.unresolved t).map minor).sum)

def queuedChecks (db : Database) (balanceID : String) : Option ℤ := some (db.getQueuedAmounts balanceID).1

/-- The unresolved queued debits of the source of an intent, without the intent. -/
def otherQueuedDebits (db : Database) (i : Row) : ℤ :=
  ((db.transactions.filter fun t => t.source = i.source && db.unresolved t && t ≠ i).map minor).sum

theorem getQueuedAmounts_source {db : Database} (hn : db.transactions.Nodup) {i : Row} (hi : i ∈ db.transactions)
    (hopen : db.unresolved i = true) : (db.getQueuedAmounts i.source).1 = i.minor+db.otherQueuedDebits i := by
  have hmem : i ∈ db.transactions.filter fun t => t.source = i.source && db.unresolved t :=
    mem_filter.mpr ⟨hi,by simp [hopen]⟩
  have hothers : (db.transactions.filter fun t => t.source = i.source && db.unresolved t).erase i =
      db.transactions.filter fun t => t.source = i.source && db.unresolved t && t ≠ i := by
    rw [(hn.filter _).erase_eq_filter,filter_filter]
    apply filter_congr
    intro t _
    by_cases ht : t = i <;> simp [ht]
  rw [otherQueuedDebits,← hothers,sum_map_erase minor hmem]
  rfl

end Database

namespace Engine

open Database VersionedStore

variable {e : Engine} {r : Row}

theorem Sound.queuedDebit_nonneg (hs : e.Sound) (id : String) : 0 ≤ (e.database.getQueuedAmounts id).1 := by
  apply sum_nonneg
  intro v hv
  obtain ⟨t,ht,rfl⟩ := mem_map.mp hv
  obtain ⟨hmem,hopen⟩ := mem_filter.mp ht
  simp only [unresolved,Bool.and_eq_true,decide_eq_true_eq] at hopen
  exact (hs.rows t hmem).nonneg (.inl hopen.2.1)

theorem not_posts_of_unresolved {db : Database} {i : Row} (h : db.unresolved i = true) (hr : r ∈ db.transactions) :
    ¬ Posts i.transactionID r := by
  intro hposts
  simp only [unresolved,Bool.and_eq_true,Bool.not_eq_true',any_eq_false] at h
  apply h.2 r hr
  rcases hposts.2 with hs | hs <;> simp [hposts.1,hs]

theorem lifecycle_of_plain {rows : List Row} {claims : List RefundClaim} {i : Row} (hj : Journal rows) (hi : i ∈ rows)
    (hintent : i.IsIntent) (hplain : i.queueAction = .unset) (hparent : r.parentTransaction = i.transactionID)
    (hreference : r.reference = i.reference ++ "_q") (haction : r.queueAction = .unset) :
    claimTransactionLifecycle rows claims r = .ok claims := by
  have hfind : find Row.transactionID rows r.parentTransaction = some i :=
    hparent ▸ find_of_mem hj.ids_nodup hi
  have hne : r.parentTransaction ≠ "" := hparent ▸ hj.id_ne_empty hi
  have hrefund : r.reference ≠ i.transactionID ++ "_refund" := hreference ▸ queue_ne_refund _ _
  have hcommit : i.queueAction ≠ .commit := by
    rw [hplain]
    decide
  have hhold : ¬ (i.status = .inflight ∧ settlesHold r = true) := by
    rintro ⟨hs,-⟩
    rcases hintent with hq | hq <;> rw [hs] at hq <;> cases hq
  rw [claimTransactionLifecycle,if_neg hne,hfind]
  simp only
  rw [if_neg hrefund,if_neg hcommit,if_neg hhold,withoutParent,if_neg (not_not.mpr haction)]

section Execution

variable {t : Transaction} {i : Row}

theorem Message.withIntentControls (hs : e.Sound) (hm : Message e.database.transactions t i) (hpos : 0 < i.minor) :
    e.database.withIntentControls t = .ok t := by
  obtain ⟨hmaterialised,hfinite⟩ := hm.money hpos
  obtain ⟨a,ha⟩ := (hs.rows i hm.mem).amount
  have hconverted : i.Converted := by
    apply (hs.rows i hm.mem).converted _ hpos
    rcases hm.intent with hq | hq <;> rw [hq] <;> decide
  have hrange : i.InRange := by
    rw [hmaterialised.amount,hm.copy.precision] at hfinite
    exact hfinite
  have hread := toTransaction_of_inRange hconverted ha hrange
  have hget : e.database.getTransaction t.parentTransaction = i.toTransaction := by
    rw [hm.copy.parent,getTransaction,hs.find hm.mem]
  obtain ⟨t',ht'⟩ : ∃ t', e.database.withIntentControls t = .ok t' := by
    rw [Database.withIntentControls,hget,hread]
    split
    · exact ⟨_,rfl⟩
    simp only [bind,Except.bind]
    split
    all_goals exact ⟨_,rfl⟩
  rw [ht',withIntentControls_copy hm.copy (hs.find hm.mem) ht']

theorem Message.valid (hm : Message rows t i) (hpos : 0 < i.minor) : t.validate = .ok () ∧ t.resolvedAmount = i.minor := by
  obtain ⟨hmaterialised,hfinite⟩ := hm.money hpos
  have hfields := (hmaterialised.valid_iff hpos.le).mpr hfinite
  constructor
  · rw [validate,hfields,hmaterialised.preciseAmount]
    change (if i.minor ≤ 0 then _ else _) = _
    rw [if_neg (not_le.mpr hpos)]
    rfl
  · rw [resolvedAmount,hmaterialised.preciseAmount,Option.getD_some,if_pos hpos]

/-- A copy of a plain intent that has the funds is executed. -/
theorem Message.executed_of_funds {c : StoredBalance} {queuedDebit : Option ℤ} (hs : e.Sound)
    (hm : Message e.database.transactions t i) (hplain : i.queueAction = .unset) (hpos : 0 < i.minor)
    (hne : i.source ≠ i.destination)
    (hfresh : ∀ x ∈ e.database.transactions, x.transactionID ≠ t.transactionID ∧ x.reference ≠ t.reference)
    (hc : e.database.findBalance i.source = some c)
    (hfunds : canProcessTransaction (t.materialise i.minor) (loadBalance c queuedDebit) = .ok ()) :
    ∃ db', e.database.processQueuedTransaction t queuedDebit = .ok db' := by
  obtain ⟨hvalid,hresolved⟩ := hm.valid hpos
  obtain ⟨hmaterialised,-⟩ := hm.money hpos
  have hsound := hs.rows i hm.mem
  have hstatus : t.status = i.status := by
    rw [hm.copy.status,hplain]
    rfl
  have hplainStatus : t.status ≠ .void ∧ t.status ≠ .commit := by
    rw [hstatus]
    rcases hm.intent with hq | hq <;> rw [hq] <;> decide
  obtain ⟨d,hd⟩ := Option.isSome_iff_exists.mp (isSome_findBalance.mpr (hs.accounted.endpoints i hm.mem).2)
  rw [← hm.copy.source] at hc hne
  rw [← hm.copy.destination] at hd hne
  have hl := Legs.updateBalances_none.mpr ⟨hvalid,hresolved.symm ▸ hfunds,
    rfl (a := (Legs.mk t (loadBalance c queuedDebit) (loadBalance d none)).posted t.resolvedAmount)⟩
  have happly : (Legs.mk t (loadBalance c queuedDebit) (loadBalance d none)).applyTransactionToBalances =
      (none,(Legs.mk t (loadBalance c queuedDebit) (loadBalance d none)).posted t.resolvedAmount) := by
    rw [Legs.applyTransactionToBalances_plain hplainStatus.1 hplainStatus.2]
    exact hl
  obtain ⟨a,happlied⟩ := Legs.applied_of_none happly
  obtain rfl : i.minor = a := happlied.kept _ hmaterialised.preciseAmount
  have hpersisted : t.persisted i.minor = t.materialise i.minor := if_neg hplainStatus.1
  have hprecision : (t.persisted i.minor).precision.toInt? = some i.precision := by
    rw [hpersisted]
    change t.precision.orOne.toInt? = _
    rw [hm.copy.precision,hsound.orOne,hsound.integral]
  have hlow : -2^63 ≤ i.precision := by
    have := hsound.scale
    omega
  have hreference : e.database.referenceExists t.reference = false := by
    rw [referenceExists,any_eq_false]
    intro x hx he
    exact (hfresh x hx).2 (of_decide_eq_true he)
  have hzero : t.isZeroPreciseAmount = false := by
    rw [isZeroPreciseAmount,hmaterialised.preciseAmount]
    exact decide_eq_false (not_le.mpr hpos)
  obtain ⟨db',hdb,-⟩ := recordTransactionSingle_exists true hs.accounted.unique hreference hc hd hne hzero happly happlied
    (hpersisted.symm ▸ majorText_ne_empty _ _) hprecision hlow hsound.range
    (lifecycle_of_plain hs.journal hm.mem hm.intent hplain hm.copy.parent hm.copy.reference (hm.copy.action.trans hplain))
    (fun x hx => (hfresh x hx).1)
  refine ⟨db',?_⟩
  rw [processQueuedTransaction,hm.withIntentControls hs hpos]
  exact hdb

theorem Message.posts_of_executed {db' : Database} {queuedDebit : Option ℤ} (hs : e.Sound)
    (hm : Message e.database.transactions t i) (hpos : 0 < i.minor)
    (h : e.database.processQueuedTransaction t queuedDebit = .ok db') : ∃ r ∈ db'.transactions, Posts i.transactionID r := by
  have hrecord := processQueuedTransaction_copy hm.copy (hs.find hm.mem) h
  cases recordTransactionSingle_ok hs.accounted.unique (hm.postable hs.journal).1 hrecord with
  | dropped unqueued => cases unqueued
  | rejected _ zero =>
    rw [isZeroPreciseAmount,(hm.money hpos).1.preciseAmount,decide_eq_true_eq] at zero
    exact absurd hpos (not_lt.mpr zero)
  | @posted _ r a p stored distinct posted =>
    refine ⟨r,?_,?_,status_of_posted hs hm stored⟩
    · rw [posted.transactions]
      exact mem_append_right _ (mem_singleton_self r)
    · rw [stored.row]
      exact hm.copy.parent

/-- What executing a copy needs besides the funds. -/
structure Executable (rows : List Row) (t : Transaction) (i : Row) : Prop where
  positive : 0 < i.minor
  distinct : i.source ≠ i.destination
  unused : ∀ x ∈ rows, x.transactionID ≠ t.transactionID ∧ x.reference ≠ t.reference

theorem availableBalance_loadBalance (c : StoredBalance) (queued : ℤ) :
    availableBalance (loadBalance c (some queued)) = c.value.balance-c.value.counters.inflightDebit-queued := rfl

/-- An unresolved transfer is executed exactly when its amount fits twice into what the others leave. -/
theorem Message.accepted_iff (hs : e.Sound) (hm : Message e.database.transactions t i) (hplain : i.queueAction = .unset)
    (hopen : e.database.unresolved i = true) (hallow : i.controls.allowOverdraft = false)
    (hlimit : i.overdraftLimit.positive = false) {c : StoredBalance} (hc : e.database.findBalance i.source = some c) :
    (∃ db', e.database.processQueuedTransaction t (e.database.queuedChecks i.source) = .ok db' ∧
      ∃ r ∈ db'.transactions, Posts i.transactionID r) ↔
    Executable e.database.transactions t i ∧
      2*i.minor ≤ c.value.balance-c.value.counters.inflightDebit-e.database.otherQueuedDebits i := by
  have hqueued := getQueuedAmounts_source hs.journal.ids_nodup.of_map hm.mem hopen
  have hfunds : ∀ a, canProcessTransaction (t.materialise a) (loadBalance c (e.database.queuedChecks i.source)) = .ok () ↔
      a ≤ c.value.balance-c.value.counters.inflightDebit-(i.minor+e.database.otherQueuedDebits i) := by
    intro a
    rw [canProcessTransaction_iff (t := t.materialise a) rfl (hm.copy.allowOverdraft.trans hallow)
      ((congrArg Float64.positive hm.copy.overdraftLimit).trans hlimit),queuedChecks,availableBalance_loadBalance,hqueued]
  constructor
  · rintro ⟨db',hdb,r,hr,hposts⟩
    have hrecord := processQueuedTransaction_copy hm.copy (hs.find hm.mem) hdb
    have hnew : r ∉ e.database.transactions := fun hold => not_posts_of_unresolved hopen hold hposts
    have hne : r.status ≠ .rejected := by
      rcases hposts.2 with hp | hp <;> rw [hp] <;> decide
    obtain ⟨a,p,c',hstored,hdistinct,hposted,hc',hok⟩ := recordTransactionSingle_posts hs.accounted.unique
      (hm.postable hs.journal).1 hrecord hr hnew hne
    cases (hm.copy.source ▸ hc').symm.trans hc
    obtain ⟨x,hx⟩ := (hs.rows i hm.mem).amount
    have hminor : i.minor = a := by
      rw [minor,hx]
      exact hstored.kept x (hm.copy.preciseAmount.trans hx)
    have hcommit : t.status ≠ .commit := by
      rw [hm.copy.status,hplain]
      rcases hm.intent with hq | hq <;> rw [hq] <;> decide
    have hchecked := hposted.checked.single
    rw [hstored.row] at hchecked
    have hfits := (hfunds a).mp (hok (hm.postable hs.journal).2 hcommit)
    refine ⟨⟨hminor ▸ hstored.positive,?_,fun y hy => ⟨hchecked.freshID y hy,hchecked.freshReference y hy⟩⟩,by omega⟩
    rw [← hm.copy.source,← hm.copy.destination]
    exact hdistinct
  · rintro ⟨hexecutable,hfits⟩
    obtain ⟨db',hdb⟩ := hm.executed_of_funds hs hplain hexecutable.positive hexecutable.distinct hexecutable.unused hc
      ((hfunds _).mpr (by omega))
    exact ⟨db',hdb,hm.posts_of_executed hs hexecutable.positive hdb⟩

end Execution

theorem amount_le_free {t : Transaction} {b : Balance} {a : ℤ} (ha : t.preciseAmount = some a)
    (hallow : t.allowOverdraft = false) (hlimit : t.overdraftLimit.positive = false) (hb : b.Consistent)
    (hqueued : 0 ≤ b.queuedDebitBalance.getD 0) (h : canProcessTransaction t b = .ok ()) : a ≤ b.counters.free := by
  have hfits := (canProcessTransaction_iff ha hallow hlimit).mp h
  rw [availableBalance,hb.1] at hfits
  rw [Counters.free]
  omega

theorem Sound.loaded_consistent (hs : e.Sound) {id : String} {c : StoredBalance}
    (hc : e.database.findBalance id = some c) (queuedDebit : Option ℤ) : (loadBalance c queuedDebit).Consistent :=
  hs.consistent c (find_mem hc)

theorem Sound.single_within_funds (hs : e.Sound) {t : Transaction} {viaQueue : Bool} {db' : Database}
    {c : StoredBalance} (hp : t.Postable) (hvoid : t.status ≠ .void) (hcommit : t.status ≠ .commit)
    (hallow : t.allowOverdraft = false) (hlimit : t.overdraftLimit.positive = false)
    (hc : e.database.findBalance t.source = some c)
    (h : e.database.recordTransactionSingle t viaQueue (e.database.queuedChecks t.source) = .ok db')
    (hr : r ∈ db'.transactions) (hnew : r ∉ e.database.transactions) (hstatus : r.status ≠ .rejected) :
    r.minor ≤ c.value.counters.free := by
  obtain ⟨a,p,c',hstored,-,-,hc',hfunded⟩ := recordTransactionSingle_posts hs.accounted.unique hp h hr hnew hstatus
  cases hc'.symm.trans hc
  have hminor : r.minor = a := by
    rw [hstored.row]
    rfl
  rw [hminor]
  exact amount_le_free (t := t.materialise a) rfl hallow hlimit (hs.loaded_consistent hc (e.database.queuedChecks t.source))
    (hs.queuedDebit_nonneg t.source) (hfunded hvoid hcommit)

theorem forall₂_split {α β : Type} {p : α → β → Prop} {xs : List α} {pre post : List β} {y : β}
    (h : List.Forall₂ p xs (pre ++ y :: post)) :
    ∃ pre' x post', xs = pre' ++ x :: post' ∧ List.Forall₂ p pre' pre ∧ p x y := by
  induction pre generalizing xs with
  | nil =>
    cases h with
    | cons hxy hrest => exact ⟨[],_,_,rfl,.nil,hxy⟩
  | cons z pre ih =>
    cases h with
    | cons hxz hrest =>
      obtain ⟨pre',x,post',rfl,hpre,hxy⟩ := ih hrest
      exact ⟨_ :: pre',x,post',rfl,.cons hxz hpre,hxy⟩

/-- Every member of a batch without overdraft stays within the free funds its source has at its turn. -/
theorem Sound.batch_within_funds (hs : e.Sound) {leader : Transaction} {siblings : List (String × String)}
    {db' : Database} (hids : ∀ copyID ∈ siblings.map Prod.snd, FreshID e copyID)
    (h : e.database.tryRecordQueuedTransactionBatch leader siblings e.database.queuedChecks = .ok db') :
    ∃ rs, db'.transactions = e.database.transactions ++ rs ∧ ∀ pre r post, rs = pre ++ r :: post →
      r.controls.allowOverdraft = false → r.overdraftLimit.positive = false →
      ∃ c, e.database.findBalance r.source = some c ∧ r.minor ≤ (c.value.counters+replay pre r.source).free := by
  obtain ⟨hleader,rest,hrest,-,h⟩ := tryRecordQueuedTransactionBatch_ok h
  obtain ⟨loaded,hloaded,h⟩ := bind_ok h
  obtain ⟨st,hst,h⟩ := bind_ok h
  obtain ⟨hloadedIDs,hreads⟩ := loadBalancesForQueuedBatch_ok hloaded
  obtain ⟨hnodup,hnonempty⟩ := collectQueuedCoalescingBalanceIDs_spec (leader :: rest)
  have hcan : ∀ t ∈ leader :: rest, canCoalesceQueuedTransaction t = .ok () :=
    forall_mem_cons.mpr ⟨hleader,fun t ht => (siblings_ok hs hids hrest t ht).2⟩
  have hfresh : ∀ b ∈ loaded, Fresh e.database.balances b.cell := by
    intro b hb
    obtain ⟨c,hc,hread⟩ := hreads b hb
    exact hread ▸ fresh_found hc _
  obtain ⟨hmoved,-⟩ := prepareQueuedBatch_ok hcan hst
  obtain ⟨-,rs,hstored,hposted⟩ := recordTransactionsWithBalanceSet_posted hs.accounted.unique (hloadedIDs ▸ hnodup)
    (fun b hb => hnonempty _ (hloadedIDs ▸ mem_map_of_mem hb)) hfresh hmoved h
  refine ⟨rs,hposted.transactions,fun pre r post hsplit hallow hlimit => ?_⟩
  obtain ⟨pre',u,post',hfinalized,hpre,hu⟩ := forall₂_split (hsplit ▸ hstored)
  obtain ⟨a,p,ha,-,-,-,rfl⟩ := hu.columns
  obtain ⟨b,b',hb,hmove,hfunded⟩ := hmoved.funded pre' u post' hfinalized
  have hkey : b.balanceID = u.source := find_key hb
  obtain ⟨c,hc,hread⟩ := hreads b (find_mem hb)
  rw [hkey] at hc
  refine ⟨c,hc,?_⟩
  have hcounters : b'.counters = c.value.counters+replay pre u.source := by
    rw [hmove.counters,replay_stored hpre,hread]
    rfl
  have hqueued : 0 ≤ b'.queuedDebitBalance.getD 0 := by
    rw [hmove.queued,hread]
    exact hs.queuedDebit_nonneg _
  have hconsistent : b.Consistent := hread ▸ hs.loaded_consistent hc _
  have hle := amount_le_free ha hallow hlimit (hmove.consistent hconsistent) hqueued hfunded
  rw [hcounters] at hle
  exact hle

/-- With queued checks on, the copy of an unresolved transfer without overdraft is executed exactly when nothing
else stands in its way and twice its amount fits into the balance less the inflight debit and the other
queued debits. No accepted transfer without overdraft exceeds the balance less the inflight debit. -/
theorem queued_checks_funds (ops : List Operation) :
    (∀ t ∈ (run ops).queue, ∀ i ∈ (run ops).database.transactions, t.parentTransaction = i.transactionID →
      i.queueAction = .unset → (run ops).database.unresolved i = true → i.controls.allowOverdraft = false →
      i.overdraftLimit.positive = false → ∀ c, (run ops).database.findBalance i.source = some c →
      ((∃ db', (run ops).database.processQueuedTransaction t ((run ops).database.queuedChecks i.source) = .ok db' ∧
          ∃ r ∈ db'.transactions, Posts i.transactionID r) ↔
        Executable (run ops).database.transactions t i ∧
          2*i.minor ≤ c.value.balance-c.value.counters.inflightDebit-(run ops).database.otherQueuedDebits i)) ∧
    (∀ t viaQueue db' c r, t.Postable → t.status ≠ .void → t.status ≠ .commit → t.allowOverdraft = false →
      t.overdraftLimit.positive = false → (run ops).database.findBalance t.source = some c →
      (run ops).database.recordTransactionSingle t viaQueue ((run ops).database.queuedChecks t.source) = .ok db' →
      r ∈ db'.transactions → r ∉ (run ops).database.transactions → r.status ≠ .rejected →
      r.minor ≤ c.value.balance-c.value.counters.inflightDebit) ∧
    ∀ message siblings, (run ops).accepts (.workBatch message siblings (run ops).database.queuedChecks) = true →
      ∃ rs, ((run ops).step (.workBatch message siblings (run ops).database.queuedChecks)).database.transactions =
          (run ops).database.transactions ++ rs ∧
        ∀ pre r post, rs = pre ++ r :: post → r.controls.allowOverdraft = false → r.overdraftLimit.positive = false →
          ∃ c, (run ops).database.findBalance r.source = some c ∧ r.minor ≤ (c.value.counters+replay pre r.source).free := by
  have hs := sound_run ops
  refine ⟨fun t ht i hi hparent hplain hopen hallow hlimit c hc => ?_,
    fun t viaQueue db' c r hp hvoid hcommit hallow hlimit hc h hr hnew hstatus => ?_,fun message siblings h => ?_⟩
  · obtain ⟨x,hm⟩ := hs.messages t ht
    obtain rfl := hs.journal.eq_of_id hm.mem hi (hm.copy.parent.symm.trans hparent)
    exact hm.accepted_iff hs hplain hopen hallow hlimit hc
  · have hle := hs.single_within_funds hp hvoid hcommit hallow hlimit hc h hr hnew hstatus
    rwa [Counters.free,← (hs.consistent c (find_mem hc)).1] at hle
  · obtain ⟨hadmissible,hperform⟩ := accepts_spec h
    rw [admissible,Bool.and_eq_true] at hadmissible
    obtain ⟨t,i,db',-,-,hdb,he⟩ := onMessage_ok hs hperform
    rw [he]
    exact hs.batch_within_funds (freshIDs_spec hadmissible.1).2 hdb

/-- A queued transfer without overdraft from a balance that holds some funds. -/
def fundedTransfer (funds amount : ℤ) : List Operation :=
  [.createBalance "bln_w" "USD",.createBalance "bln_a" "USD",.createBalance "bln_b" "USD",
    .post { transferRequest "in" funds with source := "bln_w", destination := "bln_a", skipQueue := true } none "txn_1" "txn_2" none,
    .post { transferRequest "out" amount with allowOverdraft := false } none "txn_3" "txn_4" none]

theorem funded_transfer_executed : ∃ t ∈ (run (fundedTransfer 200 60)).queue,
    ∃ i ∈ (run (fundedTransfer 200 60)).database.transactions, i.minor = 60 ∧
      ∃ db', (run (fundedTransfer 200 60)).database.processQueuedTransaction t
          ((run (fundedTransfer 200 60)).database.queuedChecks i.source) = .ok db' ∧
        ∃ r ∈ db'.transactions, Posts i.transactionID r := by
  have hfacts : ∃ t ∈ (run (fundedTransfer 200 60)).queue, ∃ i ∈ (run (fundedTransfer 200 60)).database.transactions,
      t.parentTransaction = i.transactionID ∧ i.queueAction = .unset ∧
      (run (fundedTransfer 200 60)).database.unresolved i = true ∧ i.controls.allowOverdraft = false ∧
      i.overdraftLimit.positive = false ∧ i.minor = 60 ∧ i.source ≠ i.destination ∧
      (∀ x ∈ (run (fundedTransfer 200 60)).database.transactions,
        x.transactionID ≠ t.transactionID ∧ x.reference ≠ t.reference) ∧
      ((run (fundedTransfer 200 60)).database.findBalance i.source).map
        (fun c => c.value.balance-c.value.counters.inflightDebit) = some 200 ∧
      (run (fundedTransfer 200 60)).database.otherQueuedDebits i = 0 := by
    decide +kernel
  obtain ⟨t,ht,i,hi,hparent,hplain,hopen,hallow,hlimit,hminor,hne,hunused,hfunds,hothers⟩ := hfacts
  obtain ⟨c,hc,hfunds⟩ := Option.map_eq_some_iff.mp hfunds
  have hiff := (queued_checks_funds (fundedTransfer 200 60)).1 t ht i hi hparent hplain hopen hallow hlimit c hc
  exact ⟨t,ht,i,hi,hminor,hiff.mpr ⟨⟨by omega,hne,hunused⟩,by omega⟩⟩

/-- A transfer of 60 from a balance of 100 with nothing else waiting is refused. -/
theorem sufficient_funds_refused :
    let e := run (fundedTransfer 100 60)
    (∃ i ∈ e.database.transactions, i.transactionID = "txn_3" ∧ i.minor = 60 ∧ e.database.unresolved i = true ∧
      i.controls.allowOverdraft = false ∧ e.database.otherQueuedDebits i = 0 ∧
      (e.database.findBalance i.source).map (fun c => c.value.balance-c.value.counters.inflightDebit) = some 100) ∧
    e.queue[0]?.map (fun t => (e.database.processQueuedTransaction t (e.database.queuedChecks "bln_a")).isOk) = some false := by
  decide +kernel

end Engine
end LedgerForge
