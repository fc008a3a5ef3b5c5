import LedgerForge.Engine.QueuedChecks

/-! # Requests that are refused after they were stored

Queueing a request stores an intent per leg first and hands the copies to the queue afterwards. Both phases
can stop at any leg, and what was stored or enqueued before stays.
-/

namespace LedgerForge.Engine

open Database List

/-- A request to queue a transaction, whole or in legs, or to queue a commit. -/
inductive Submission
  | single (request : Request) (group : Option String) (newID copyID : String)
  | split (request : Request) (splitID : String) (legs : List (SplitLeg × String × String))
  | commit (id : String) (amount : Option ℤ) (reference newID copyID : String)

/-- The intents of a request in the order in which they are stored. -/
def Submission.legs : Submission → List Operation
  | .single request group newID copyID => [.post { request with skipQueue := false } group newID copyID none]
  | .split request splitID legs => legs.map fun (leg,legID,copyID) =>
    .postLeg { request with skipQueue := false } leg splitID legID copyID none
  | .commit id amount reference newID copyID => [.commitQueued id amount reference newID copyID]

/-- What the queue answers: the error for the copy of each leg, and the error of the expiry or commit task. -/
structure Handover where
  refusal : ℕ → Option String
  schedule : Option String

/-- Store the intents one after the other, up to the first that is refused. The messages are those of each leg. -/
def processTxns (e : Engine) : List Operation → Engine × List (List Transaction) × Option String
  | [] => (e,[],none)
  | op :: ops =>
    match (if e.admissible op then e.perform op else .error "identifier already in use") with
    | .error err => (e,[],some err)
    | .ok e' =>
      let (e'',messages,err) := e'.processTxns ops
      (e'',e'.queue.drop e.queue.length :: messages,err)

/-- Hand the copies over, up to the first that cannot be serialised or that the queue refuses. -/
def enqueueTransactions (refusal : ℕ → Option String) : ℕ → List (List Transaction) → List Transaction × Option String
  | _, [] => ([],none)
  | _, [] :: _ => ([],some "json: unsupported value")
  | n, (t :: ts) :: rest =>
    match refusal n with
    | some err => ([],some err)
    | none =>
      let (sent,err) := enqueueTransactions refusal (n+1) rest
      (t :: ts ++ sent,err)

def submit (e : Engine) (s : Submission) (h : Handover) : Engine × Option String :=
  match e.processTxns s.legs with
  | (e',_,some err) => ({ e' with queue := e.queue },some err)
  | (e',messages,none) =>
    let (sent,err) := enqueueTransactions h.refusal 0 messages
    ({ e' with queue := e.queue ++ sent },err <|> h.schedule)

inductive Event
  | operation (op : Operation)
  | submission (s : Submission) (h : Handover)

def react (e : Engine) : Event → Engine
  | .operation op => e.step op
  | .submission s h => (e.submit s h).1

def history (evs : List Event) : Engine := evs.foldl react empty

variable {e : Engine}

theorem Sound.restrict (h : e.Sound) {queue : List Transaction} (hsub : ∀ t ∈ queue, t ∈ e.queue) :
    { e with queue := queue }.Sound :=
  ⟨h.accounted,h.consistent,h.journal,h.bounded,h.rows,h.ids,fun t ht => h.messages t (hsub t ht)⟩

theorem leg_appends {e' : Engine} {s : Submission} {op : Operation} (hs : e.Sound) (hop : op ∈ s.legs)
    (ha : e.admissible op = true) (h : e.perform op = .ok e') :
    e.database.transactions.length < e'.database.transactions.length := by
  have hlonger : ∀ {rs : List Row} {e' : Engine}, Appended e e' rs → rs ≠ [] →
      e.database.transactions.length < e'.database.transactions.length := by
    intro rs e' happended hne
    rw [happended.posted.transactions,length_append]
    have := length_pos_iff.mpr hne
    omega
  rw [admissible,Bool.and_eq_true] at ha
  obtain ⟨hids,hgroup⟩ := ha
  have hfresh := (freshIDs_spec hids).2
  cases s with
  | single request group newID copyID =>
    obtain rfl := mem_singleton.mp hop
    obtain ⟨rs,happended,-,hne⟩ := post_appended hs hids (fun g hg => by subst hg; exact hgroup) h
    exact hlonger happended hne
  | split request splitID legs =>
    obtain ⟨⟨leg,legID,copyID⟩,-,rfl⟩ := mem_map.mp hop
    obtain ⟨rs,happended,-,hne⟩ := leg_appended hs hids hgroup h
    exact hlonger happended (hne rfl)
  | commit id amount reference newID copyID =>
    obtain rfl := mem_singleton.mp hop
    obtain ⟨⟨db',message⟩,hdb,rfl⟩ := map_ok h
    obtain ⟨r,happended,-⟩ := commitQueued_appended hs (hfresh newID mem_cons_self)
      (hfresh copyID (mem_cons_of_mem _ mem_cons_self)) hdb
    exact hlonger happended (cons_ne_nil _ _)

theorem processTxns_spec (hs : e.Sound) (ops : List Operation) :
    (e.processTxns ops).1.Sound ∧ e.database.transactions <+: (e.processTxns ops).1.database.transactions ∧
      (e.processTxns ops).1.queue = e.queue ++ (e.processTxns ops).2.1.flatten := by
  induction ops generalizing e with
  | nil => exact ⟨hs,prefix_rfl,(append_nil _).symm⟩
  | cons op ops ih =>
    rw [processTxns]
    split
    · exact ⟨hs,prefix_rfl,(append_nil _).symm⟩
    rename_i e' h
    obtain ⟨ha,h⟩ := ok_of_check h
    have hstep := perform_ok hs ha h
    obtain ⟨hsound,hrows,hqueue⟩ := ih (hstep.sound hs)
    refine ⟨hsound,hstep.rows.trans hrows,?_⟩
    obtain ⟨sent,hsent⟩ := hstep.queue
    rw [hqueue,flatten_cons,← append_assoc]
    rw [← hsent,drop_left]

theorem enqueueTransactions_sub (refusal : ℕ → Option String) (n : ℕ) (messages : List (List Transaction)) :
    (enqueueTransactions refusal n messages).1 <+: messages.flatten := by
  induction messages generalizing n with
  | nil => exact prefix_rfl
  | cons m rest ih =>
    cases m with
    | nil => exact nil_prefix
    | cons t ts =>
      rw [enqueueTransactions]
      split
      · exact nil_prefix
      · exact (prefix_append_right_inj _).mpr (ih (n+1))

theorem submit_spec (hs : e.Sound) (s : Submission) (h : Handover) :
    (e.submit s h).1.Sound ∧ e.database.transactions <+: (e.submit s h).1.database.transactions := by
  obtain ⟨hsound,hrows,hqueue⟩ := processTxns_spec hs s.legs
  unfold submit
  split
  · rename_i e' messages err he
    rw [he] at hsound hrows hqueue
    refine ⟨hsound.restrict fun t ht => ?_,hrows⟩
    rw [hqueue]
    exact mem_append_left _ ht
  · rename_i e' messages he
    rw [he] at hsound hrows hqueue
    refine ⟨hsound.restrict fun t ht => ?_,hrows⟩
    rw [hqueue]
    exact mem_append.mpr
      ((mem_append.mp ht).imp_right fun h => (enqueueTransactions_sub _ 0 messages).subset h)

theorem submit_of_nothing_stored (hs : e.Sound) {s : Submission} {h : Handover}
    (hnothing : (e.submit s h).1.database.transactions = e.database.transactions) : (e.submit s h).1 = e := by
  have hrows : (e.processTxns s.legs).1.database.transactions = e.database.transactions := by
    rw [← hnothing,submit]
    split <;> rename_i he <;> rw [he]
  have hfirst : e.processTxns s.legs = (e,[],none) ∨ ∃ err, e.processTxns s.legs = (e,[],some err) := by
    cases hlegs : s.legs with
    | nil => exact .inl rfl
    | cons op ops =>
      right
      rw [hlegs] at hrows
      rw [processTxns] at hrows ⊢
      split at hrows
      · exact ⟨_,rfl⟩
      -- the first leg was stored, so the table has grown
      rename_i e' h
      obtain ⟨ha,h⟩ := ok_of_check h
      have hlonger := leg_appends hs (hlegs ▸ mem_cons_self) ha h
      have hkept := (processTxns_spec ((perform_ok hs ha h).sound hs) ops).2.1.length_le
      have hsame := congrArg List.length hrows
      dsimp only at hsame
      omega
  rcases hfirst with he | ⟨err,he⟩
  · rw [submit,he]
    simp only [enqueueTransactions,append_nil]
  · rw [submit,he]

theorem react_spec (hs : e.Sound) (ev : Event) :
    (e.react ev).Sound ∧ e.database.transactions <+: (e.react ev).database.transactions := by
  cases ev with
  | operation op => exact ⟨(step_ok hs op).sound hs,(step_ok hs op).rows⟩
  | submission s h => exact submit_spec hs s h

theorem react_foldl (hs : e.Sound) (evs : List Event) :
    (evs.foldl react e).Sound ∧ e.database.transactions <+: (evs.foldl react e).database.transactions := by
  induction evs generalizing e with
  | nil => exact ⟨hs,prefix_rfl⟩
  | cons ev evs ih =>
    obtain ⟨hsound,hrows⟩ := react_spec hs ev
    obtain ⟨hlast,hkept⟩ := ih hsound
    exact ⟨hlast,hrows.trans hkept⟩

theorem history_sound (evs : List Event) : (history evs).Sound := (react_foldl empty_sound evs).1

/-- What executing a stored transfer in a recovery pass needs. -/
structure Recoverable (e : Engine) (i : Row) (c : StoredBalance) : Prop where
  status : i.status = .queued
  action : i.queueAction = .unset
  childless : e.database.childless i.transactionID = true
  positive : 0 < i.minor
  inRange : i.InRange
  distinct : i.source ≠ i.destination
  unused : ∀ x ∈ e.database.transactions, x.reference ≠ i.reference ++ "_q"
  found : e.database.findBalance i.source = some c
  funds : i.controls.allowOverdraft = true ∧ i.overdraftLimit.isZero = true ∨
    i.minor ≤ c.value.balance-c.value.counters.inflightDebit

theorem siblingRejected_eq_false {i : Row} {t : Transaction} (hs : e.Sound) (hi : i ∈ e.database.transactions)
    (hqueued : i.status = .queued) (haction : i.queueAction = .unset)
    (hchildless : e.database.childless i.transactionID = true) (ht : i.toQueuedTransaction = .ok t) :
    e.database.siblingRejected t = false := by
  obtain ⟨amount,text,rfl⟩ := (hs.rows i hi).readable (.inl hqueued) t ht
  rw [siblingRejected,Bool.and_eq_false_iff]
  right
  rw [any_eq_false]
  intro x hx hrejected
  have hmem := mem_reverse.mp (mem_of_mem_take hx)
  simp only [mem_filter,decide_eq_true_eq] at hmem hrejected
  obtain ⟨hxrow,hparent⟩ := hmem
  obtain ⟨j,hj,-,hxj⟩ := hs.journal.rejects hxrow hrejected
  obtain rfl := hs.journal.eq_of_link hi (.inl hqueued) haction hj (hxj.symm.trans hparent)
  simp only [childless,Bool.not_eq_true',any_eq_false,decide_eq_true_eq] at hchildless
  exact hchildless x hxrow hxj

theorem Recoverable.posts {i : Row} {c : StoredBalance} (h : Recoverable e i c) (hs : e.Sound)
    (hi : i ∈ e.database.transactions) {copyID : String} (hid : e.freshIDs [copyID] = true) :
    ∃ db', e.database.processStuckTransaction i.transactionID copyID false none = .ok db' ∧
      ∃ r ∈ db'.transactions, Posts i.transactionID r := by
  have hfresh := (freshIDs_spec hid).2 copyID mem_cons_self
  have hsound := hs.rows i hi
  obtain ⟨a,ha⟩ := hsound.amount
  have hconverted := hsound.converted (by rw [h.status]; decide) h.positive
  obtain ⟨t,ht⟩ : ∃ t, i.toQueuedTransaction = .ok t := by
    rw [Row.toQueuedTransaction,toTransaction_of_inRange hconverted ha h.inRange]
    exact ⟨_,rfl⟩
  have hm := message_of_intent hs hi (.inl h.status) ht hfresh
  have hunused : ∀ x ∈ e.database.transactions, x.transactionID ≠ (t.createQueueCopy t.reference copyID).transactionID ∧
      x.reference ≠ (t.createQueueCopy t.reference copyID).reference := by
    intro x hx
    rw [createQueueCopy_transactionID,hm.copy.reference]
    exact ⟨hfresh.row x hx,h.unused x hx⟩
  have hfunds : canProcessTransaction ((t.createQueueCopy t.reference copyID).materialise i.minor) (loadBalance c none) =
      .ok () := by
    have hallow : ((t.createQueueCopy t.reference copyID).materialise i.minor).allowOverdraft = i.controls.allowOverdraft :=
      hm.copy.allowOverdraft
    have hlimit : ((t.createQueueCopy t.reference copyID).materialise i.minor).overdraftLimit = i.overdraftLimit :=
      hm.copy.overdraftLimit
    unfold canProcessTransaction
    rw [hallow,hlimit]
    split
    · rfl
    rename_i hcapped
    rcases h.funds with hfree | hfits
    · rw [hfree.1,hfree.2] at hcapped
      exact absurd rfl hcapped
    refine if_pos ?_
    change i.minor ≤ c.value.balance-c.value.counters.inflightDebit-0
    omega
  obtain ⟨db',hdb⟩ := hm.executed_of_funds hs h.action h.positive h.distinct hunused h.found hfunds
  refine ⟨db',?_,hm.posts_of_executed hs h.positive hdb⟩
  have hzero : t.isZeroPreciseAmount = false := by
    rw [Transaction.isZeroPreciseAmount,(hsound.materialised_of_queued (.inl h.status) h.positive ht).1.preciseAmount]
    exact decide_eq_false (not_le.mpr h.positive)
  have hsiblings := siblingRejected_eq_false hs hi h.status h.action h.childless ht
  rw [processStuckTransaction,hs.find hi]
  simp only [h.status,h.childless,and_self,if_true,ht,bind,Except.bind,hzero,Bool.or_false,Bool.false_eq_true,if_false,
    hsiblings]
  exact hdb

/-- A refused request that stored nothing changes no later state of any history. If it stored a transfer that is still
open and can be executed at some later time, a recovery pass that time posts it. -/
theorem refused_request_effect (before after : List Event) (s : Submission) (h : Handover) (err : String)
    (_hrefused : ((history before).submit s h).2 = some err) :
    (((history before).submit s h).1.database.transactions = (history before).database.transactions →
      history (before ++ .submission s h :: after) = history (before ++ after)) ∧
    ∀ i ∈ ((history before).submit s h).1.database.transactions, i ∉ (history before).database.transactions →
      ∀ c copyID, Recoverable (history (before ++ .submission s h :: after)) i c →
        (history (before ++ .submission s h :: after)).freshIDs [copyID] = true →
        ∃ db', (history (before ++ .submission s h :: after)).database.processStuckTransaction i.transactionID copyID false
            none = .ok db' ∧ ∃ r ∈ db'.transactions, Posts i.transactionID r := by
  have hbefore : ∀ evs, history (before ++ evs) = evs.foldl react (history before) := fun evs => foldl_append
  have hlater : history (before ++ .submission s h :: after) = after.foldl react ((history before).submit s h).1 := hbefore _
  constructor
  · intro hnothing
    rw [hlater,submit_of_nothing_stored (history_sound before) hnothing,hbefore]
  · intro i hi _ c copyID hrecoverable hid
    have hrows : ((history before).submit s h).1.database.transactions <+:
        (history (before ++ .submission s h :: after)).database.transactions :=
      hlater ▸ (react_foldl (submit_spec (history_sound before) s h).1 after).2
    exact hrecoverable.posts (history_sound _) (hrows.subset hi) hid

def twoBalances : List Event := [.operation (.createBalance "bln_a" "USD"),.operation (.createBalance "bln_b" "USD")]

/-- A request to a balance that does not exist. -/
def strayRequest : Submission := .single { transferRequest "x" 60 with destination := "bln_c" } none "txn_1" "txn_2"

theorem stray_request_without_effect :
    ((history twoBalances).submit strayRequest ⟨fun _ => none,none⟩).2 =
        some "failed to get source/destination balances" ∧ ∀ after,
      history (twoBalances ++ .submission strayRequest ⟨fun _ => none,none⟩ :: after) = history (twoBalances ++ after) := by
  have hrefused : ((history twoBalances).submit strayRequest ⟨fun _ => none,none⟩).2 =
      some "failed to get source/destination balances" := by decide +kernel
  exact ⟨hrefused,fun after =>
    (refused_request_effect twoBalances after strayRequest _ _ hrefused).1 (by decide +kernel)⟩

def fullQueue : Handover := ⟨fun _ => some "queue backpressure: redis memory or pending task limit reached",none⟩

/-- A request that is refused because the queue is full is executed by the next recovery pass. -/
theorem backpressured_request_executed :
    ((history twoBalances).submit (.single (transferRequest "x" 60) none "txn_1" "txn_2") fullQueue).2 =
      some "queue backpressure: redis memory or pending task limit reached" ∧
    (((history (twoBalances ++ [.submission (.single (transferRequest "x" 60) none "txn_1" "txn_2") fullQueue,
        .operation (.recover "txn_1" "txn_3" false none)])).database.findBalance "bln_a").map
      fun c => c.value.balance) = some (-60) := by
  decide +kernel

end LedgerForge.Engine
