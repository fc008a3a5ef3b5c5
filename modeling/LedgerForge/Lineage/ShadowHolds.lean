import LedgerForge.Lineage.ShadowWork

/-! # Shadow holds and their parent

The shadows of a hold are committed in whole by the first commit request on it and released by its void. What is committed
on the shadows therefore follows what is committed on the parent when the parent is committed in whole, or not at all.
-/

namespace LedgerForge.Lineage

open Engine List ShadowEntry ShadowAction

/-- What decides whether a hold has shadows: texts and controls of the transaction, and the answers of the balance
lookups, which may fail or find nothing. -/
structure LineageView where
  isShadow : Bool
  fundAllocation : Bool
  provider : String
  source : String
  sourceTracks : Except String (Option Bool)
  destinationTracks : Except String (Option Bool)

/-- A lookup that fails counts as a balance that tracks lineage. -/
def inflightTransactionNeedsShadowWork (v : LineageView) : Bool :=
  if v.isShadow then false
  else if v.fundAllocation then true
  else if v.provider ≠ "" then
    match v.destinationTracks with
    | .error _ => true
    | .ok tracks => tracks.getD false
  else if v.source.toList.head? = some '@' then false
  else match v.sourceTracks with
    | .error _ => true
    | .ok tracks => tracks.getD false

inductive ParentRequest
  | commit (amount : Option ℤ) (reference newID : String) (queuedDebit : Option ℤ)
  | commitQueued (amount : Option ℤ) (reference newID copyID : String)
  | void (reference newID : String) (queuedDebit : Option ℤ)
deriving DecidableEq

def ParentRequest.operation (parent : String) : ParentRequest → Operation
  | .commit amount reference newID queuedDebit => .commit parent amount reference newID queuedDebit
  | .commitQueued amount reference newID copyID => .commitQueued parent amount reference newID copyID
  | .void reference newID queuedDebit => .void parent reference newID queuedDebit

/-- The shadows are told at once, also when the commit itself is only queued. -/
def ParentRequest.action : ParentRequest → ShadowAction
  | .commit _ _ _ _ => .commit
  | .commitQueued _ _ _ _ => .commit
  | .void _ _ _ => .void

/-- The engine and the outbox entries for the shadows of one parent. -/
structure ShadowSystem where
  engine : Engine
  outbox : List ShadowEntry

namespace ShadowSystem

/-- Work off the shadows, and keep an entry for a retry if that fails and the entry can be stored. -/
def queueShadowWork (shadowFor : String → String) (parent : String) (a : ShadowAction) (v : LineageView) (w : ShadowCalls)
    (stored : Bool) (s : ShadowSystem) : ShadowSystem :=
  if !inflightTransactionNeedsShadowWork v then s
  else match runShadowWork a shadowFor parent w s.engine with
    | (e,none) => { s with engine := e }
    | (e,some _) => ⟨e,if stored then s.outbox ++ [⟨a,.pending,0,5⟩] else s.outbox⟩

/-- One step: any operation of the engine, a request on the parent with the shadow work after it, or an attempt of an
outbox entry. -/
inductive ShadowEvent
  | operation (op : Operation)
  | request (r : ParentRequest) (v : LineageView) (w : ShadowCalls) (stored : Bool)
  | entry (i : ℕ) (w : ShadowCalls)

def step (shadowFor : String → String) (parent : String) (s : ShadowSystem) : ShadowEvent → ShadowSystem
  | .operation op => { s with engine := s.engine.step op }
  | .request r v w stored =>
    if s.engine.accepts (r.operation parent) then
      queueShadowWork shadowFor parent r.action v w stored { s with engine := s.engine.step (r.operation parent) }
    else s
  | .entry i w => match s.outbox[i]? with
    | some entry =>
      let (e,entry) := processEntry shadowFor parent (s.engine,entry) w
      ⟨e,s.outbox.set i entry⟩
    | none => s

def run (shadowFor : String → String) (parent : String) (s : ShadowSystem) (events : List ShadowEvent) : ShadowSystem :=
  events.foldl (step shadowFor parent) s

def rows (s : ShadowSystem) : List Row := s.engine.database.transactions

end ShadowSystem

def ShadowAction.status : ShadowAction → Status
  | .commit => .applied
  | .void => .void

def settledBy (a : ShadowAction) (rows : List Row) (h : Row) : ℤ :=
  (rows.map fun r => if Settles rows h r ∧ r.status = a.status then r.minor else 0).sum

def committedAmount : List Row → Row → ℤ := settledBy .commit

def releasedAmount : List Row → Row → ℤ := settledBy .void

variable {rows rs : List Row} {a : ShadowAction} {h r : Row} {e e' : Engine} {parent : String}

theorem settledAmount_split (rows : List Row) (h : Row) :
    settledAmount rows h = settledBy .commit rows h+settledBy .void rows h := by
  rw [settledBy,settledBy,← sum_map_add]
  refine congrArg List.sum (map_congr_left fun r _ => ?_)
  by_cases hsettles : Settles rows h r
  · rcases hsettles.1 with hstatus | hstatus <;> simp [hsettles,hstatus,ShadowAction.status]
  · simp [hsettles]

theorem settledBy_eq_zero (hnone : ∀ r ∈ rows, Settles rows h r → r.status ≠ a.status) : settledBy a rows h = 0 := by
  refine sum_eq_zero fun v hv => ?_
  obtain ⟨r,hr,rfl⟩ := mem_map.mp hv
  exact if_neg fun hc => hnone r hr hc.1 hc.2

theorem minor_pos (hs : e.Sound) (hr : r ∈ e.database.transactions) (hsettled : r.IsSettled) : 0 < r.minor := by
  apply (hs.rows r hr).posted
  · rintro (hi | hi) <;> rcases hsettled with hc | hc <;> rw [hi] at hc <;> cases hc
  · rcases hsettled with hc | hc <;> rw [hc] <;> decide

theorem settledBy_pos (hs : e.Sound) (hr : r ∈ e.database.transactions) (hsettles : Settles e.database.transactions h r)
    (hstatus : r.status = a.status) : 0 < settledBy a e.database.transactions h := by
  have hterm : ∀ x ∈ e.database.transactions.map fun r =>
      if Settles e.database.transactions h r ∧ r.status = a.status then r.minor else 0, 0 ≤ x := by
    intro x hx
    obtain ⟨y,hy,rfl⟩ := mem_map.mp hx
    split
    · next hc => exact (minor_pos hs hy hc.1.1).le
    · exact le_rfl
  refine lt_of_lt_of_le (minor_pos hs hr hsettles.1) (single_le_sum hterm _ ?_)
  exact mem_map.mpr ⟨r,hr,if_pos ⟨hsettles,hstatus⟩⟩

def ShadowAction.Requested (a : ShadowAction) (rows : List Row) (parent : String) : Prop :=
  ∃ r ∈ rows, r.parentTransaction = parent ∧ match a with
    | .commit => (r.status = .applied ∨ r.status = .queued) ∧ r.queueAction = .commit
    | .void => r.status = .void

instance (rows : List Row) (parent : String) : (a : ShadowAction) → Decidable (a.Requested rows parent)
  | .commit => inferInstanceAs (Decidable (∃ r ∈ rows, _ ∧ _ ∧ _))
  | .void => inferInstanceAs (Decidable (∃ r ∈ rows, _ ∧ _))

theorem Requested.mono (ha : a.Requested rows parent) (hrows : rows <+: rs) : a.Requested rs parent := by
  obtain ⟨r,hr,hrest⟩ := ha
  exact ⟨r,hrows.subset hr,hrest⟩

def Follows (parent : String) (rows : List Row) (h : Row) : Prop :=
  ∀ r ∈ rows, r.parentTransaction = h.transactionID → ∃ a : ShadowAction, r.status = a.status ∧ a.Requested rows parent

/-- The operation leaves a shadow to the shadow work, and settles it only as the parent was settled. -/
def Repeats (parent : String) (rows : List Row) (h : Row) (op : Operation) : Prop :=
  op.settled = some h.transactionID → ∃ (a : ShadowAction) (t : Transaction) (c : ShadowCall),
    op = a.operation t c ∧ a.Requested rows parent

theorem status_of_writes {t : Transaction} {c : ShadowCall} (hw : (a.operation t c).Writes e r) : r.status = a.status := by
  cases a with
  | commit => exact hw.2.1
  | void => exact hw.2

variable {op : Operation}

theorem settled_of_new (hs : e.Sound) (ha : e.admissible op = true) (hwrites : ∀ r ∈ rs, op.Writes e r)
    (hj : Journal (e.database.transactions ++ rs)) (hh : h ∈ e.database.transactions) (hold : h.status = .inflight)
    (hr : r ∈ rs) (hparent : r.parentTransaction = h.transactionID) : op.settled = some h.transactionID := by
  obtain ⟨-,hchild | hsettled | hrefunded⟩ :=
    writes_target hwrites hj (rooted_of_admissible ha) hr (mem_append_left _ hh) hparent
  · rcases hchild.intent with hi | hi <;> rw [hold] at hi <;> cases hi
  · exact hsettled
  -- only applied rows are refunded
  cases op <;> cases hrefunded
  obtain ⟨o,ho,hid,happlied,-⟩ := hwrites r hr
  obtain rfl := hs.journal.eq_of_id ho hh hid
  rw [hold] at happlied
  cases happlied

theorem Follows.step (hs : e.Sound) (hh : h ∈ e.database.transactions) (hold : h.status = .inflight)
    (hf : Follows parent e.database.transactions h) (hop : Repeats parent e.database.transactions h op) :
    Follows parent (e.step op).database.transactions h := by
  by_cases ha : e.admissible op = true
  · have hone := step_ok hs op
    have hj := (hone.sound hs).journal
    have hrows := hone.rows
    cases hone with
    | created id currency created =>
      rw [created,(createBalance_frame e.database id currency).1]
      exact hf
    | appended rs appended writes =>
      rw [appended.posted.transactions] at hj hrows ⊢
      intro r hr hparent
      rcases mem_append.mp hr with hr | hr
      · obtain ⟨a,hstatus,hrequested⟩ := hf r hr hparent
        exact ⟨a,hstatus,Requested.mono hrequested hrows⟩
      · obtain ⟨a,t,c,rfl,hrequested⟩ := hop (settled_of_new hs ha writes hj hh hold hr hparent)
        exact ⟨a,status_of_writes (writes r hr),Requested.mono hrequested hrows⟩
  · rw [Engine.step,if_neg ha]
    exact hf

theorem requested_of_accepts {q : ParentRequest} (hs : e.Sound) (h : e.accepts (q.operation parent) = true) :
    q.action.Requested (e.step (q.operation parent)).database.transactions parent := by
  obtain ⟨ha,hp⟩ := accepts_spec h
  rw [admissible,Bool.and_eq_true] at ha
  have hfresh := (freshIDs_spec ha.1).2
  cases q with
  | commit amount reference newID queuedDebit =>
    obtain ⟨db',hdb,he⟩ := withDatabase_ok hp
    obtain ⟨r,happended,hr,hstatus⟩ := commit_appended hs (hfresh newID mem_cons_self) hdb
    rw [he]
    exact ⟨r,happended.posted.transactions ▸ by simp,hr.parent,.inl hstatus.1,hstatus.2⟩
  | commitQueued amount reference newID copyID =>
    obtain ⟨⟨db',message⟩,hdb,he⟩ := map_ok hp
    obtain ⟨r,happended,hr,hstatus⟩ := commitQueued_appended hs (hfresh newID mem_cons_self)
      (hfresh copyID (mem_cons_of_mem _ mem_cons_self)) hdb
    rw [he]
    exact ⟨r,happended.posted.transactions ▸ by simp,hr.parent,.inr hstatus.1,hstatus.2⟩
  | void reference newID queuedDebit =>
    obtain ⟨db',hdb,he⟩ := withDatabase_ok hp
    obtain ⟨r,happended,hr,hstatus,-⟩ := void_appended hs (hfresh newID mem_cons_self) hdb
    rw [he]
    exact ⟨r,happended.posted.transactions ▸ by simp,hr.parent,hstatus⟩

variable {shadowFor : String → String} {shadows : List Row} {p : Row}

/-- The shadows are holds that follow the parent. -/
structure Shadowed (p : Row) (shadows : List Row) (e : Engine) : Prop where
  sound : e.Sound
  parent : p ∈ e.database.transactions
  mem : ∀ h ∈ shadows, h ∈ e.database.transactions
  hold : ∀ h ∈ shadows, h.status = .inflight
  follows : ∀ h ∈ shadows, Follows p.transactionID e.database.transactions h

theorem Shadowed.step (hs : Shadowed p shadows e)
    (hop : ∀ h ∈ shadows, Repeats p.transactionID e.database.transactions h op) : Shadowed p shadows (e.step op) where
  sound := (step_ok hs.sound op).sound hs.sound
  parent := (step_ok hs.sound op).rows.subset hs.parent
  mem h hh := (step_ok hs.sound op).rows.subset (hs.mem h hh)
  hold := hs.hold
  follows h hh := (hs.follows h hh).step hs.sound (hs.mem h hh) (hs.hold h hh) (hop h hh)

theorem Shadowed.foldl {ops : List Operation} (hs : Shadowed p shadows e)
    (hops : ∀ op ∈ ops, ∃ t c, op = a.operation t c) (ha : a.Requested e.database.transactions p.transactionID) :
    Shadowed p shadows (ops.foldl Engine.step e) := by
  induction ops generalizing e with
  | nil => exact hs
  | cons op ops ih =>
    rw [forall_mem_cons] at hops
    obtain ⟨⟨t,c,rfl⟩,hrest⟩ := hops
    exact ih (hs.step fun h _ _ => ⟨a,t,c,rfl,ha⟩) hrest (Requested.mono ha (step_ok hs.sound _).rows)

theorem Shadowed.work (hs : Shadowed p shadows e) (ha : a.Requested e.database.transactions p.transactionID) (w : ShadowCalls) :
    Shadowed p shadows (runShadowWork a shadowFor p.transactionID w e).1 ∧
      e.database.transactions <+: (runShadowWork a shadowFor p.transactionID w e).1.database.transactions := by
  obtain ⟨ops,hops,hform⟩ := @runShadowWork_steps shadowFor p.transactionID a w e
  rw [hops]
  exact ⟨hs.foldl hform ha,(sound_foldl hs.sound ops).2⟩

theorem processEntry_action (s : Engine × ShadowEntry) (w : ShadowCalls) :
    (processEntry shadowFor parent s w).2.action = s.2.action := by
  unfold processEntry
  split
  · split <;> rfl
  · rfl

theorem Shadowed.processEntry {entry : ShadowEntry} (hs : Shadowed p shadows e)
    (ha : entry.action.Requested e.database.transactions p.transactionID) (shadowFor : String → String) (w : ShadowCalls) :
    Shadowed p shadows (ShadowEntry.processEntry shadowFor p.transactionID (e,entry) w).1 ∧
      e.database.transactions <+: (ShadowEntry.processEntry shadowFor p.transactionID (e,entry) w).1.database.transactions := by
  unfold ShadowEntry.processEntry
  split
  · have hwork := @Shadowed.work entry.action e shadowFor shadows p hs ha w
    split
    all_goals next hrun => rwa [hrun] at hwork
  · exact ⟨hs,prefix_rfl⟩

namespace ShadowSystem

/-- Every outbox entry goes back to a request on the parent. -/
structure Kept (p : Row) (shadows : List Row) (s : ShadowSystem) : Prop where
  shadowed : Shadowed p shadows s.engine
  entries : ∀ entry ∈ s.outbox, entry.action.Requested s.rows p.transactionID

def ShadowEvent.Apart (shadows : List Row) : ShadowEvent → Prop
  | .operation op => ∀ h ∈ shadows, op.settled ≠ some h.transactionID
  | _ => True

variable {s : ShadowSystem}

theorem Kept.queueShadowWork (hk : Kept p shadows s) (ha : a.Requested s.rows p.transactionID) (v : LineageView)
    (w : ShadowCalls) (stored : Bool) : Kept p shadows (s.queueShadowWork shadowFor p.transactionID a v w stored) := by
  unfold ShadowSystem.queueShadowWork
  split
  · exact hk
  obtain ⟨hshadowed,hrows⟩ := @Shadowed.work a s.engine shadowFor shadows p hk.shadowed ha w
  have hentries : ∀ entry ∈ s.outbox, entry.action.Requested
      (runShadowWork a shadowFor p.transactionID w s.engine).1.database.transactions p.transactionID :=
    fun entry hentry => Requested.mono (hk.entries entry hentry) hrows
  generalize runShadowWork a shadowFor p.transactionID w s.engine = r at hshadowed hrows hentries
  obtain ⟨e,error⟩ := r
  cases error with
  | none => exact ⟨hshadowed,hentries⟩
  | some message =>
    refine ⟨hshadowed,fun entry hentry => ?_⟩
    cases stored with
    | false => exact hentries entry hentry
    | true =>
      rcases mem_append.mp hentry with hentry | hentry
      · exact hentries entry hentry
      · rw [mem_singleton.mp hentry]
        exact Requested.mono ha hrows

theorem Kept.step (hk : Kept p shadows s) (hparent : ∀ h ∈ shadows, h.transactionID ≠ p.transactionID)
    {ev : ShadowEvent} (hapart : ev.Apart shadows) : Kept p shadows (s.step shadowFor p.transactionID ev) := by
  cases ev with
  | operation op =>
    refine ⟨hk.shadowed.step fun h hh hsettled => absurd hsettled (hapart h hh),fun entry hentry => ?_⟩
    exact Requested.mono (hk.entries entry hentry) (step_ok hk.shadowed.sound op).rows
  | request q v w stored =>
    simp only [ShadowSystem.step]
    split
    · next haccepts =>
      have hother : ∀ h ∈ shadows, Repeats p.transactionID s.engine.database.transactions h (q.operation p.transactionID) := by
        intro h hh hsettled
        have hid : some p.transactionID = some h.transactionID := by cases q <;> exact hsettled
        exact absurd (Option.some.inj hid).symm (hparent h hh)
      have hrows := (step_ok hk.shadowed.sound (q.operation p.transactionID)).rows
      refine Kept.queueShadowWork ⟨hk.shadowed.step hother,fun entry hentry => ?_⟩
        (requested_of_accepts hk.shadowed.sound haccepts) v w stored
      exact Requested.mono (hk.entries entry hentry) hrows
    · exact hk
  | entry i w =>
    simp only [ShadowSystem.step]
    split
    · next entry hentry =>
      have ha := hk.entries entry (mem_of_getElem? hentry)
      obtain ⟨hshadowed,hrows⟩ := hk.shadowed.processEntry ha shadowFor w
      refine ⟨hshadowed,fun x hx => ?_⟩
      rcases mem_or_eq_of_mem_set hx with hx | rfl
      · exact Requested.mono (hk.entries x hx) hrows
      · rw [processEntry_action]
        exact Requested.mono ha hrows
    · exact hk

theorem Kept.run (hk : Kept p shadows s) (hparent : ∀ h ∈ shadows, h.transactionID ≠ p.transactionID)
    {events : List ShadowEvent} (hapart : ∀ ev ∈ events, ev.Apart shadows) :
    Kept p shadows (s.run shadowFor p.transactionID events) := by
  induction events generalizing s with
  | nil => exact hk
  | cons ev events ih =>
    rw [forall_mem_cons] at hapart
    exact ih (hk.step hparent hapart.1) hapart.2

end ShadowSystem

theorem settles_status (hs : e.Sound) (hh : h ∈ e.database.transactions) (hold : h.status = .inflight)
    (hr : r ∈ e.database.transactions) (hsettles : Settles e.database.transactions h r) (hstatus : r.status = .applied) :
    commit.Requested e.database.transactions h.transactionID := by
  rcases hsettles.2 with hparent | ⟨q,hq,hcommit,hparent,-⟩
  · have hchild := hs.journal.holdChild hh hold hr hparent
    rcases hchild.status with hv | hc
    · rw [hstatus] at hv
      cases hv
    · exact ⟨r,hr,hparent,hc⟩
  · exact ⟨q,hq,hparent,.inr hcommit.1,hcommit.2⟩

theorem not_voided_of_committed (hs : e.Sound) (hp : p ∈ e.database.transactions) (hold : p.status = .inflight)
    (hwhole : committedAmount e.database.transactions p = p.minor) :
    ¬ void.Requested e.database.transactions p.transactionID := by
  rintro ⟨r,hr,hparent,hvoid⟩
  have hpos : 0 < settledBy .void e.database.transactions p := settledBy_pos hs hr ⟨.inr hvoid,.inl hparent⟩ hvoid
  have hle := hs.unsettled_nonneg hp hold
  rw [unsettled,settledAmount_split] at hle
  rw [committedAmount] at hwhole
  omega

theorem Follows.settles (hf : Follows parent e.database.transactions h) (hr : r ∈ e.database.transactions)
    (hsettles : Settles e.database.transactions h r) :
    ∃ a : ShadowAction, r.status = a.status ∧ a.Requested e.database.transactions parent := by
  rcases hsettles.2 with hparent | ⟨q,hq,hcommit,hparent,-⟩
  · exact hf r hr hparent
  -- a queued commit is no settlement by the shadow work
  obtain ⟨a,hstatus,-⟩ := hf q hq hparent
  rw [hcommit.1] at hstatus
  cases a <;> cases hstatus

theorem Follows.settledBy_eq_zero (hf : Follows parent e.database.transactions h)
    (hnone : ¬ a.Requested e.database.transactions parent) : settledBy a e.database.transactions h = 0 := by
  refine Lineage.settledBy_eq_zero fun r hr hsettles hstatus => ?_
  obtain ⟨b,hb,hrequested⟩ := hf.settles hr hsettles
  have hab : a = b := by
    rw [hstatus] at hb
    cases a <;> cases b <;> first | rfl | cases hb
  exact hnone (hab ▸ hrequested)

theorem Shadowed.committed (hs : Shadowed p shadows e) (hold : p.status = .inflight) (hprocessed : ∀ h ∈ shadows, unsettled e.database.transactions h = 0)
    (hwhole : committedAmount e.database.transactions p = p.minor ∨
      ¬ commit.Requested e.database.transactions p.transactionID) :
    (committedAmount e.database.transactions p = p.minor ∧
        ∀ h ∈ shadows, committedAmount e.database.transactions h = h.minor) ∨
      committedAmount e.database.transactions p = 0 ∧ ∀ h ∈ shadows, committedAmount e.database.transactions h = 0 := by
  rcases hwhole with hwhole | hnone
  · refine .inl ⟨hwhole,fun h hh => ?_⟩
    have hvoid := (hs.follows h hh).settledBy_eq_zero (not_voided_of_committed hs.sound hs.parent hold hwhole)
    have hsettled := hprocessed h hh
    rw [unsettled,settledAmount_split] at hsettled
    rw [committedAmount]
    omega
  · exact .inr ⟨settledBy_eq_zero fun _ hr hsettles hstatus => hnone (settles_status hs.sound hs.parent hold hr hsettles hstatus),fun h hh => (hs.follows h hh).settledBy_eq_zero hnone⟩

/-- The hold and its two shadows, in the order in which they were stored. -/
def heldRow (i : ℕ) : Row := (Engine.run shadowedHold).database.transactions.getD i (Writers.Storage.plainRow "" "" 0 .inflight)

def allocated : LineageView := ⟨false,true,"","bln_a",.ok none,.ok none⟩

def afterEvents (events : List ShadowSystem.ShadowEvent) : ShadowSystem :=
  ShadowSystem.run shadowOf (heldRow 0).transactionID ⟨Engine.run shadowedHold,[]⟩ events

/-- The whole hold is committed; the lock of one shadow is not available until the work is tried again. -/
def committedWhole : List ShadowSystem.ShadowEvent :=
  [.request (.commit (some 0) "c" "txn_b" none) allocated (shadowCalls true) true,.entry 0 (shadowCalls false)]

def committedPart : List ShadowSystem.ShadowEvent :=
  [.request (.commit (some 40) "c" "txn_b" none) allocated (shadowCalls false) true,
    .request (.void "v" "txn_c" none) allocated (shadowCalls false) true]

def committedNothing : List ShadowSystem.ShadowEvent :=
  [.request (.commitQueued (some 0) "c" "txn_b" "txn_c") allocated (shadowCalls false) true,.operation (.reject 0)]

end LedgerForge.Lineage
