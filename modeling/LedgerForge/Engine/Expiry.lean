import LedgerForge.Engine.Reservations
import LedgerForge.Journal.Children

/-! # Expiry of holds

The expiry task of a request carries the identifier of the request and voids the row with that identifier. A
hold that was posted synchronously is this row, and its remainder is released.
-/

namespace LedgerForge.Engine

open VersionedStore Database Bool

def Operation.requestID : Operation → Option String
  | .post _ _ newID _ _ => some newID
  | .postLeg _ _ splitID _ _ _ => some splitID
  | _ => none

/-- The holds of a request: its own row or the child of its intent, and for a split the rows of its legs or the
children of their intents. -/
def Operation.Holds (rows : List Row) (h : Row) : Operation → Prop
  | .post _ _ newID _ _ => h.status = .inflight ∧ (h.transactionID = newID ∨ h.parentTransaction = newID)
  | .postLeg _ _ splitID _ _ _ => h.status = .inflight ∧ (h.parentTransaction = splitID ∨
      ∃ i ∈ rows, i.IsIntent ∧ i.parentTransaction = splitID ∧ h.parentTransaction = i.transactionID)
  | _ => False

/-- The request is a single transfer that does not go through the queue. -/
def Operation.Synchronous : Operation → Prop
  | .post request _ _ _ _ => request.skipQueue = true
  | _ => False

def released (h : Row) (amount : ℤ) (id : String) : Counters :=
  ⟨0,0,if h.destination = id then -amount else 0,if h.source = id then -amount else 0⟩

/-- The step settles the hold, takes exactly what the hold still reserved off the counters, and no commit of the hold is
accepted any more. -/
structure Released (e e' : Engine) (h : Row) : Prop where
  settled : settledAmount e'.database.transactions h = h.minor
  counters : ∀ id c, e.database.findBalance id = some c → ∃ c', e'.database.findBalance id = some c' ∧
    c'.value.counters = c.value.counters+released h (LedgerForge.unsettled e.database.transactions h) id
  closed : ∀ (later : List Operation) amount reference newID copyID queuedDebit,
    (later.foldl step e').accepts (.commit h.transactionID amount reference newID queuedDebit) = false ∧
    (later.foldl step e').accepts (.commitQueued h.transactionID amount reference newID copyID) = false

theorem ExtendsAll.settledAmount_le {queue : List Transaction} {rows rs : List Row} (h : ExtendsAll queue rows rs) (x : Row) :
    settledAmount rows x ≤ settledAmount (rows ++ rs) x := by
  induction h with
  | nil rows => rw [List.append_nil]
  | @cons rows rs r head tail ih =>
    rw [List.append_assoc,settledAmount_append head.unused] at ih
    refine le_trans (le_add_of_nonneg_right ?_) ih
    split
    · rename_i hsettles
      have hpos : 0 < r.minor := by
        apply head.sound.posted
        · rintro (hs | hs) <;> rcases hsettles.1 with hr | hr <;> rw [hs] at hr <;> cases hr
        · rcases hsettles.1 with hr | hr <;> rw [hr] <;> decide
      exact hpos.le
    · exact le_rfl

theorem settledAmount_foldl {e : Engine} (hs : e.Sound) (ops : List Operation) (x : Row) :
    settledAmount e.database.transactions x ≤ settledAmount (ops.foldl step e).database.transactions x := by
  induction ops generalizing e with
  | nil => exact le_rfl
  | cons op ops ih =>
    have hone := step_ok hs op
    refine le_trans ?_ (ih (hone.sound hs))
    cases hone with
    | created id currency created =>
      rw [created,(createBalance_frame e.database id currency).1]
    | appended rs appended _ =>
      rw [appended.posted.transactions]
      exact appended.rows.settledAmount_le x

section Hold

variable {e : Engine} {h : Row}

theorem Sound.not_validated (hs : e.Sound) (hh : h ∈ e.database.transactions) (hold : h.status = .inflight)
    (hsettled : h.minor ≤ settledAmount e.database.transactions h) {t t' : Transaction} {amount : Option ℤ}
    (hfetch : e.database.fetchAndValidateInflightTransaction h.transactionID = .ok t) :
    e.database.validateAndUpdateAmount t amount ≠ .ok t' := by
  intro hvalid
  obtain ⟨r,hf⟩ := fetchAndValidateInflightTransaction_ok hfetch
  obtain rfl := hs.journal.eq_of_id hf.mem hh hf.key
  obtain ⟨major,-,-,rfl⟩ := hf.read
  obtain ⟨a,ha⟩ := (hs.rows r hh).amount
  obtain ⟨left,x,-,hleft,hpos,hle,-⟩ := validateAndUpdateAmount_ok hvalid
  rw [hs.bounded.calculateRemainingAmount hh hold ha rfl rfl,consumed_eq_settled hs.bounded hs.journal.ids_nodup hh hold]
    at hleft
  have hopen := openCommits_nonneg hs.bounded hh hold (hs.journal.inflight_action hh (.inl hold))
  have heq := Except.ok.inj hleft
  rw [minor_of_some ha] at hsettled
  omega

theorem Sound.commits_refused (hs : e.Sound) (hh : h ∈ e.database.transactions) (hold : h.status = .inflight)
    (hsettled : h.minor ≤ settledAmount e.database.transactions h) (amount : Option ℤ) (reference newID copyID : String)
    (queuedDebit : Option ℤ) : e.accepts (.commit h.transactionID amount reference newID queuedDebit) = false ∧
      e.accepts (.commitQueued h.transactionID amount reference newID copyID) = false := by
  constructor
  · refine eq_false_iff.mpr fun hc => ?_
    obtain ⟨db',hdb,-⟩ := withDatabase_ok (accepts_spec hc).2
    obtain ⟨t,ht,hrest⟩ := bind_ok hdb
    obtain ⟨t',ht',-⟩ := bind_ok hrest
    exact hs.not_validated hh hold hsettled ht ht'
  · refine eq_false_iff.mpr fun hc => ?_
    obtain ⟨x,hx,-⟩ := map_ok (accepts_spec hc).2
    obtain ⟨t,ht,hrest⟩ := bind_ok hx
    obtain ⟨t',ht',-⟩ := bind_ok hrest
    exact hs.not_validated hh hold hsettled ht ht'

theorem delta_of_void {r : Row} (hv : r.status = .void) (id : String) : r.delta id = released r r.minor id := by
  rw [Row.delta,movement_of_void hv,released]
  simp only
  split <;> split <;> ext <;> simp [Movement.debitSide,Movement.creditSide,Row.minor, *]

theorem Sound.released_of_settled (hs : e.Sound) (hh : h ∈ e.database.transactions) (hold : h.status = .inflight)
    (hsettled : LedgerForge.unsettled e.database.transactions h = 0) : Released e e h := by
  have heq : settledAmount e.database.transactions h = h.minor := by
    rw [LedgerForge.unsettled] at hsettled
    omega
  refine ⟨heq,fun id c hc => ⟨c,hc,?_⟩,fun later amount reference newID copyID queuedDebit => ?_⟩
  · rw [hsettled,released,neg_zero,ite_self,ite_self]
    exact (add_zero _).symm
  · obtain ⟨hsound,hrows⟩ := sound_foldl hs later
    exact hsound.commits_refused (hrows.subset hh) hold (heq ▸ settledAmount_foldl hs later h) ..

/-- A void of a hold takes exactly its remainder. -/
theorem Sound.void_exact (hs : e.Sound) (hh : h ∈ e.database.transactions) (hold : h.status = .inflight)
    {reference newID : String} {queuedDebit : Option ℤ} {e' : Engine}
    (ha : e.admissible (.void h.transactionID reference newID queuedDebit) = true)
    (hp : e.perform (.void h.transactionID reference newID queuedDebit) = .ok e') :
    ∃ r, Appended e e' [r] ∧ Unused e.database.transactions r ∧ r.status = .void ∧ r.parentTransaction = h.transactionID ∧
      r.source = h.source ∧ r.destination = h.destination ∧ r.minor = remainder e.database.transactions h ∧ 0 < r.minor := by
  rw [admissible,and_eq_true] at ha
  have hfresh := (freshIDs_spec ha.1).2 newID List.mem_cons_self
  obtain ⟨db',hdb,rfl⟩ := withDatabase_ok hp
  obtain ⟨r,happended,hsettling,hvoid,hwhole⟩ := void_appended hs hfresh hdb
  have hx : Extends e.queue e.database.transactions r := by
    cases happended.rows with
    | cons head tail => exact head
  have hterms : r.source = h.source ∧ r.destination = h.destination := by
    rcases hx.origin.void hvoid with ⟨p,hp,hchild,-,hsame,-⟩ | ⟨i,hi,hchild,hqueued⟩
    · obtain rfl := hs.journal.eq_of_id hh hp (hsettling.parent.symm.trans hchild.parent)
      exact ⟨(sameTerms_iff.mp hsame).1,(sameTerms_iff.mp hsame).2.1⟩
    obtain rfl := hs.journal.eq_of_id hh hi (hsettling.parent.symm.trans hchild.parent)
    rw [hqueued] at hold
    cases hold
  have hpos : 0 < r.minor := by
    apply hx.sound.posted
    · rintro (hr | hr) <;> rw [hvoid] at hr <;> cases hr
    · rw [hvoid]
      decide
  refine ⟨r,happended,hx.unused,hvoid,hsettling.parent,hterms.1,hterms.2,?_,hpos⟩
  have := hwhole h hh rfl hold
  rw [hs.remainder_eq hh hold]
  omega

/-- Without an open queued commit the void releases the hold. -/
theorem Sound.released_of_void (hs : e.Sound) (hf : VoidsFinal e.database.transactions)
    (hv : VoidsRelease e.database.transactions) (hh : h ∈ e.database.transactions) (hold : h.status = .inflight)
    (hne : h.source ≠ h.destination) (hopen : openCommits e.database.transactions h = 0) {reference newID : String}
    (hids : e.freshIDs [newID] = true) (href : e.database.referenceExists reference = false)
    (hrefund : reference ≠ h.transactionID ++ "_refund") (queuedDebit : Option ℤ) :
    Released e (e.step (.void h.transactionID reference newID queuedDebit)) h := by
  have ha : e.admissible (.void h.transactionID reference newID queuedDebit) = true := by
    rw [admissible,and_eq_true]
    exact ⟨hids,rfl⟩
  have hleft : remainder e.database.transactions h = LedgerForge.unsettled e.database.transactions h := by
    rw [remainder,hopen,sub_zero,LedgerForge.unsettled]
  rcases (hs.unsettled_nonneg hh hold).eq_or_lt with hzero | hpos
  · -- nothing is left, so the void is refused
    have hsame : e.step (.void h.transactionID reference newID queuedDebit) = e := by
      rw [step,if_pos ha]
      split
      · rename_i e' hp
        obtain ⟨r,-,-,-,-,-,-,hminor,hr⟩ := hs.void_exact hh hold ha hp
        omega
      · rfl
    rw [hsame]
    exact hs.released_of_settled hh hold hzero.symm
  · have hfresh := ((freshIDs_spec hids).2 newID List.mem_cons_self).row
    obtain ⟨db',hdb⟩ := hs.void_accepted hf hv hh hold (hleft ▸ hpos) hne hfresh href hrefund queuedDebit
    have hp : e.perform (.void h.transactionID reference newID queuedDebit) = .ok { e with database := db' } := by
      rw [perform,hdb]
      rfl
    have hstep : e.step (.void h.transactionID reference newID queuedDebit) = { e with database := db' } := by
      rw [step,if_pos ha,hp]
    obtain ⟨r,happended,hunused,hvoid,hparent,hsource,hdestination,hminor,-⟩ := hs.void_exact hh hold ha hp
    have hsettled : settledAmount db'.transactions h = h.minor := by
      rw [happended.posted.transactions,settledAmount_append hunused,if_pos ⟨.inr hvoid,.inl hparent⟩,hminor,hleft,
        LedgerForge.unsettled]
      omega
    rw [hstep]
    refine ⟨hsettled,fun id c hc => ?_,fun later amount reference newID copyID queuedDebit => ?_⟩
    · obtain ⟨c',hc',hcounters,-⟩ := happended.posted.balances id c hc
      refine ⟨c',hc',?_⟩
      rw [hcounters,replay_eq_sum,List.map_singleton,List.sum_singleton,delta_of_void hvoid,released,released,hsource,
        hdestination,hminor,hleft]
    · have hs' := hs.appended happended
      have hmem : h ∈ db'.transactions := happended.posted.transactions ▸ List.mem_append_left _ hh
      obtain ⟨hsound,hrows⟩ := sound_foldl hs' later
      exact hsound.commits_refused (hrows.subset hmem) hold (hsettled ▸ settledAmount_foldl hs' later h) ..

end Hold

def Requested (ops : List Operation) (op : Operation) : Prop :=
  ∃ before after, ops = before ++ op :: after ∧ (run before).accepts op = true

section Request

variable {ops : List Operation} {op : Operation} {id : String} {h : Row}

theorem Requested.row {request : Request} {group : Option String} {copyID : String} {queuedDebit : Option ℤ}
    (hreq : Requested ops (.post request group id copyID queuedDebit)) : ∃ r ∈ (run ops).database.transactions,
      RequestRow request request.reference (linkOf group id) id (group.getD "") r := by
  obtain ⟨before,after,rfl,haccepted⟩ := hreq
  have hs := sound_run before
  obtain ⟨hadmissible,hperform⟩ := accepts_spec haccepted
  rw [admissible,and_eq_true] at hadmissible
  obtain ⟨hids,hgroup⟩ := hadmissible
  obtain ⟨rs,happended,hrs,hne⟩ := post_appended hs hids (fun g hg => by subst hg; exact hgroup) hperform
  obtain ⟨r,hr⟩ := List.exists_mem_of_ne_nil rs hne
  refine ⟨r,?_,hrs r hr⟩
  -- later steps only append
  rw [run_append]
  apply (sound_foldl ((step_ok hs _).sound hs) after).2.subset
  rw [happended.posted.transactions]
  exact List.mem_append_right _ hr

theorem Requested.own (hreq : Requested ops op) (hid : op.requestID = some id) (hh : h ∈ (run ops).database.transactions)
    (hholds : op.Holds (run ops).database.transactions h) (hsync : op.Synchronous) :
    h.transactionID = id ∧ h.source ≠ h.destination := by
  have hj := (sound_run ops).journal
  cases op with
  | post request group newID copyID queuedDebit =>
    cases hid
    have hskip : request.skipQueue = true := hsync
    obtain ⟨r,hr,hrow⟩ := hreq.row
    obtain ⟨hold,hown | hchild⟩ := hholds
    · obtain rfl := hj.eq_of_id hh hr (hown.trans hrow.key.symm)
      exact ⟨hown,hrow.distinct hskip⟩
    -- a synchronous request has no intent that a hold could execute
    have hstatus := hrow.status
    rw [if_pos hskip] at hstatus
    rcases hj.intent_of_hold hr hh hold (hchild.trans hrow.key.symm) with hs | hs <;> rw [hs] at hstatus <;>
      split at hstatus <;> cases hstatus
  | _ => exact hsync.elim

theorem Requested.other (hreq : Requested ops op) (hid : op.requestID = some id) (hh : h ∈ (run ops).database.transactions)
    (hholds : op.Holds (run ops).database.transactions h) (hsync : ¬ op.Synchronous) : h.transactionID ≠ id := by
  have hj := (sound_run ops).journal
  intro he
  cases op with
  | post request group newID copyID queuedDebit =>
    cases hid
    have hskip : ¬ request.skipQueue = true := hsync
    obtain ⟨r,hr,hrow⟩ := hreq.row
    obtain rfl := hj.eq_of_id hh hr (he.trans hrow.key.symm)
    have hstatus := hrow.status
    rw [if_neg hskip] at hstatus
    rcases hstatus with hs | hs <;> rw [hholds.1] at hs <;> cases hs
  | postLeg request leg splitID legID copyID queuedDebit =>
    cases hid
    obtain ⟨-,hleg | ⟨i,hi,-,hparent,hchild⟩⟩ := hholds
    · obtain ⟨_,_,_,_,hunused,_⟩ := hj.origin hh
      exact hunused.own (hleg.trans he.symm)
    · obtain ⟨_,_,_,hpre,_,hunused,_⟩ := hj.parent_before hi hh hchild
      exact hunused.parent i hpre (hparent.trans he.symm)
  | _ => cases hid

theorem Operation.Holds.inflight {rows : List Row} (hholds : op.Holds rows h) : h.status = .inflight := by
  cases op with
  | post => exact hholds.1
  | postLeg => exact hholds.1
  | _ => exact hholds.elim

end Request

theorem Sound.closed_of_settled {e : Engine} {h : Row} (hs : e.Sound) (hh : h ∈ e.database.transactions)
    (hold : h.status = .inflight) (hpos : 0 < LedgerForge.unsettled e.database.transactions h) {reference newID : String}
    {queuedDebit : Option ℤ} (hsettled : settledAmount
      (e.step (.void h.transactionID reference newID queuedDebit)).database.transactions h = h.minor) :
    openCommits e.database.transactions h = 0 := by
  rw [LedgerForge.unsettled] at hpos
  unfold step at hsettled
  split at hsettled
  · rename_i ha
    split at hsettled
    · rename_i e' hp
      obtain ⟨r,happended,hunused,hvoid,hparent,-,-,hminor,-⟩ := hs.void_exact hh hold ha hp
      rw [happended.posted.transactions,settledAmount_append hunused,hminor,remainder]
        at hsettled
      omega
    · omega
  · omega

/-- After a run that voids no queued intent and rejects no queued commit of a voided hold, the expiry of a request
releases a hold of it if the request was a synchronous single transfer and no queued commit of the hold is open.
A hold that still reserves something is released only then. -/
theorem expiry_releases_hold (ops : List Operation) (op : Operation) (id : String) (hreq : Requested ops op)
    (hid : op.requestID = some id) (hr : Along (fun e op => op.RejectsUnvoided e) empty ops)
    (hv : Along (fun e op => op.VoidsHold e) empty ops) :
    ∀ h ∈ (run ops).database.transactions, op.Holds (run ops).database.transactions h →
      ∀ reference newID queuedDebit, (run ops).freshIDs [newID] = true →
        (run ops).database.referenceExists reference = false → reference ≠ id ++ "_refund" →
        (op.Synchronous ∧ openCommits (run ops).database.transactions h = 0 →
          Released (run ops) ((run ops).step (.void id reference newID queuedDebit)) h) ∧
        (0 < LedgerForge.unsettled (run ops).database.transactions h →
          Released (run ops) ((run ops).step (.void id reference newID queuedDebit)) h →
          op.Synchronous ∧ openCommits (run ops).database.transactions h = 0) := by
  intro h hh hholds reference newID queuedDebit hids href hrefund
  have hs := sound_run ops
  have hold := hholds.inflight
  constructor
  · rintro ⟨hsync,hopen⟩
    obtain ⟨rfl,hne⟩ := hreq.own hid hh hholds hsync
    exact hs.released_of_void (voidsFinal_run ops hr) (voidsRelease_run ops hv) hh hold hne hopen hids href hrefund queuedDebit
  · intro hpos hreleased
    by_cases hsync : op.Synchronous
    · obtain ⟨rfl,-⟩ := hreq.own hid hh hholds hsync
      exact ⟨hsync,hs.closed_of_settled hh hold hpos hreleased.settled⟩
    -- the void names another row, so the hold keeps what it reserves
    have hkept := (step_ok hs (.void id reference newID queuedDebit)).unsettled hs rfl (hreq.other hid hh hholds hsync)
    have hsettled := hreleased.settled
    rw [LedgerForge.unsettled] at hkept
    omega

def heldAndCommitted : List Operation := heldFunds ++ [.commit "txn_1" (some 40) "c" "txn_3" none]

theorem held_and_committed_expires : Requested heldAndCommitted (.post (holdRequest "h" 100 true) none "txn_1" "txn_2" none) ∧
    (∃ h ∈ (run heldAndCommitted).database.transactions, h.transactionID = "txn_1" ∧ h.status = .inflight ∧
      LedgerForge.unsettled (run heldAndCommitted).database.transactions h = 60) ∧
    ∀ h ∈ (run heldAndCommitted).database.transactions, h.transactionID = "txn_1" → h.status = .inflight →
      Released (run heldAndCommitted) ((run heldAndCommitted).step (.void "txn_1" "v" "txn_4" none)) h := by
  have hreq : Requested heldAndCommitted (.post (holdRequest "h" 100 true) none "txn_1" "txn_2" none) :=
    ⟨heldAndCommitted.take 2,heldAndCommitted.drop 3,rfl,by decide +kernel⟩
  have hopen : ∀ h ∈ (run heldAndCommitted).database.transactions,
      openCommits (run heldAndCommitted).database.transactions h = 0 := by decide +kernel
  refine ⟨hreq,by decide +kernel,fun h hh hown hold => ?_⟩
  exact (expiry_releases_hold heldAndCommitted _ "txn_1" hreq rfl (by decide) (by decide) h hh
    ⟨hold,.inl hown⟩ "v" "txn_4" none (by decide +kernel) (by decide +kernel) (by decide)).1 ⟨rfl,hopen h hh⟩

/-- The expiry of a queued hold voids its intent and takes its amount off the counters, but the executed hold stays
unsettled. The expiry of a split finds no row, and its leg can still be committed. -/
theorem expired_holds_survive :
    let balances : List Operation := [.createBalance "bln_a" "USD",.createBalance "bln_b" "USD"]
    let queued := run (balances ++ [.post (holdRequest "q" 50 false) none "txn_1" "txn_2" none,.work 0 none,
      .void "txn_1" "v" "txn_3" none])
    let split := run (balances ++ [.postLeg (holdRequest "s" 50 true) ⟨"bln_a","bln_b","s_1",50⟩ "txn_0" "txn_1" "txn_2" none,
      .void "txn_0" "v" "txn_3" none])
    (∃ h ∈ queued.database.transactions, h.transactionID = "txn_2" ∧ h.parentTransaction = "txn_1" ∧ h.status = .inflight ∧
      LedgerForge.unsettled queued.database.transactions h = 50) ∧
    (queued.database.findBalance "bln_a").map (fun c => c.value.counters.inflightDebit) = some 0 ∧
    (∃ h ∈ split.database.transactions, h.transactionID = "txn_1" ∧ h.parentTransaction = "txn_0" ∧ h.status = .inflight ∧
      LedgerForge.unsettled split.database.transactions h = 50) ∧
    split.accepts (.commit "txn_1" (some 50) "c" "txn_4" none) = true := by
  decide +kernel

end LedgerForge.Engine
