import LedgerForge.Engine.Settlements

/-! # Postings, splits and refunds

A request that is accepted appends one row: executed at once, or stored as an intent whose copy goes to
the queue. Refunds are requests whose row reverses an applied row.
-/

namespace LedgerForge.Engine

open VersionedStore Database List Transaction Bool

/-- The row that stores a transaction apart from its amount and status. -/
structure Recorded (u : Transaction) (r : Row) : Prop where
  key : r.transactionID = u.transactionID
  parent : r.parentTransaction = u.parentTransaction
  kind : r.controls.parentKind = u.parentKind
  queuedParent : r.controls.queuedParent = u.queuedParent
  source : r.source = u.source
  destination : r.destination = u.destination
  reference : r.reference = u.reference
  currency : r.currency = u.currency
  action : r.queueAction = u.queueAction
  inflight : r.controls.inflight = u.inflight
  scale : u.precision.orOne.toInt? = some r.precision
  sound : r.Sound

variable {u : Transaction} {queuedDebit : Option ℤ} {e e' : Engine} {copyID : String} {r : Row}

theorem recorded_of_single {db db' : Database} {a : ℤ} (hn : db.UniqueBalances)
    (hm : u.Materialised a) (hs : u.status = .queued ∨ u.status = .scheduled) (ha : u.queueAction = .unset)
    (h : db.recordTransactionSingle u false queuedDebit = .ok db') :
    a ≤ 0 ∧ db' = db ∨ ∃ r, Recorded u r ∧ r.source ≠ r.destination ∧ (r.status = if u.inflight then .inflight else .applied) ∧
      Posted db db' [r] := by
  have hpostable : u.Postable := by rcases hs with hs | hs <;> simp [Transaction.Postable,hs,ha]
  have hv : u.status ≠ .void := by rcases hs with hs | hs <;> simp [hs]
  cases recordTransactionSingle_ok hn hpostable h with
  | dropped _ zero =>
    rw [isZeroPreciseAmount,hm.preciseAmount,decide_eq_true_eq] at zero
    exact .inl ⟨zero,rfl⟩
  | rejected queued => cases queued
  | @posted _ r a' p stored distinct posted =>
    obtain rfl : a = a' := stored.kept a hm.preciseAmount
    have hsound := stored.sound (fun hs => absurd hs hv) fun _ => ⟨hv,hm⟩
    have hscale := stored.precision
    rw [persisted,if_neg hv] at hscale
    obtain rfl := stored.row
    refine .inr ⟨u.postedRow a p,⟨rfl,rfl,rfl,rfl,rfl,rfl,rfl,rfl,rfl,rfl,hscale,hsound⟩,distinct,?_,posted⟩
    rcases hs with hs | hs <;> simp [postedRow,hs,applicableStatus]

theorem setTransactionStatus_frame (hs : u.status = .queued ∨ u.status = .scheduled) :
    ∃ s, u.setTransactionStatus = { u with status := s } ∧ (s = .queued ∨ s = .scheduled) := by
  rw [setTransactionStatus]
  split
  · exact ⟨.scheduled,rfl,.inr rfl⟩
  split
  · exact ⟨.queued,rfl,.inl rfl⟩
  · exact ⟨u.status,rfl,hs⟩

/-- Storing an intent and enqueueing its copy. -/
theorem recorded_of_queued {a : ℤ} (hm : u.Materialised a) (ha : 0 ≤ a)
    (hs : u.status = .queued ∨ u.status = .scheduled) (hid : u.transactionID ≠ "")
    (h : e.processSingleTransaction u copyID = .ok e') : ∃ r w, Recorded u r ∧ r.IsIntent ∧ StoredAs w r ∧ w.Intended ∧
      Posted e.database e'.database [r] ∧ e'.queue = e.queue ++ (w.createQueueCopy w.reference copyID).message := by
  obtain ⟨s,hu,hs'⟩ := setTransactionStatus_frame hs
  have hm' : u.setTransactionStatus.Materialised a := hu ▸ hm.frame rfl rfl rfl rfl rfl rfl
  have hintended := hm'.intended ha ""
  have hscale : (u.setTransactionStatus.setTransactionMetadata "").precision = u.precision :=
    (applyPrecision_scale hm'.preciseAmount hm'.scale).2.trans (by rw [hu])
  obtain ⟨amount,text,minor,precision,happly⟩ := u.setTransactionStatus.applyPrecision_frame
  have hframe := setTransactionMetadata.eq_1 u.setTransactionStatus ""
  simp only [happly] at hframe
  obtain ⟨-,h⟩ := ok_of_guard h
  obtain ⟨db,hdb,hlast⟩ := bind_ok h
  cases hlast
  obtain ⟨r,hstored,hinserted⟩ := recordTransaction_ok hdb
  obtain ⟨a',p,-,hp,-,-,hrow⟩ := hstored.columns
  have hintent : r.IsIntent := by
    rw [hrow,hframe,hu]
    exact hs'
  refine ⟨r,_,?_,hintent,hstored,hintended,hinserted.posted (movement_of_intent hintent),rfl⟩
  have hprecision : u.precision.orOne.toInt? = some r.precision := by
    rw [hm.scale,hrow,← hscale]
    exact hp
  have hsound := sound_of_intended hstored hintended hintent
  rw [hframe,hu,if_neg hid] at hrow
  subst hrow
  exact ⟨rfl,rfl,rfl,rfl,rfl,rfl,rfl,rfl,rfl,rfl,hprecision,hsound⟩

/-- Accepting a request assigns its identifier and status and converts its amount. -/
theorem prepared_frame {t : Transaction} (newID : String) (hv : t.validateMonetaryFields = .ok ())
    (hs : t.status = .other "") (hid : t.transactionID = "" ∨ t.transactionID = newID) :
    ∃ amount text s, (t.setTransactionMetadata newID).setTransactionStatus = { t with
        amount := amount, amountString := text, preciseAmount := some t.resolvedAmount, precision := t.precision.orOne,
        transactionID := newID, status := s } ∧ (s = .queued ∨ s = .scheduled) ∧
      (t.setTransactionMetadata newID).setTransactionStatus.Materialised t.resolvedAmount := by
  have hkey : (if t.transactionID = "" then newID else t.transactionID) = newID := by
    rcases hid with hid | hid <;> simp [hid]
  have hframe : t.setTransactionMetadata newID = { t with
      amount := (t.materialise t.resolvedAmount).amount, amountString := (t.materialise t.resolvedAmount).amountString,
      preciseAmount := some t.resolvedAmount, precision := t.precision.orOne, transactionID := newID } := by
    rw [setTransactionMetadata,applyPrecision_of_valid hv]
    change { t.materialise t.resolvedAmount with
      transactionID := if t.transactionID = "" then newID else t.transactionID } = _
    rw [hkey]
    rfl
  have hm := materialised_setTransactionMetadata hv newID
  rw [setTransactionStatus]
  split
  · rw [hframe]
    exact ⟨_,_,.scheduled,rfl,.inr rfl,(hframe ▸ hm).frame rfl rfl rfl rfl rfl rfl⟩
  · rw [if_pos (by rw [hframe]; exact hs),hframe]
    exact ⟨_,_,.queued,rfl,.inl rfl,(hframe ▸ hm).frame rfl rfl rfl rfl rfl rfl⟩

/-- What an accepted request appended. -/
inductive Posting (e : Engine) (t : Transaction) (newID copyID : String) (e' : Engine) : Prop
  | executed (r : Row) (recorded : Recorded { t with transactionID := newID } r) (skipQueue : t.skipQueue = true)
      (distinct : r.source ≠ r.destination)
      (status : r.status = if t.inflight then .inflight else .applied) (posted : Posted e.database e'.database [r])
      (queue : e'.queue = e.queue)
  | queued (r : Row) (w : Transaction) (recorded : Recorded { t with
        transactionID := newID, queuedParent := queuedParentOf { t with transactionID := newID } } r)
      (skipQueue : t.skipQueue = false) (intent : r.IsIntent) (stored : StoredAs w r)
      (intended : w.Intended) (posted : Posted e.database e'.database [r])
      (queue : e'.queue = e.queue ++ (w.createQueueCopy w.reference copyID).message)

variable {newID : String}

theorem queueTransaction_ok {t : Transaction}
    (hn : e.database.UniqueBalances) (hs : t.status = .other "") (ha : t.queueAction = .unset)
    (hid : t.transactionID = "" ∨ t.transactionID = newID) (hne : newID ≠ "")
    (h : e.queueTransaction t newID copyID queuedDebit = .ok e') : Posting e t newID copyID e' := by
  obtain ⟨_,hvalid,h⟩ := bind_ok h
  obtain ⟨hv,hpos,-⟩ := validate_ok hvalid
  obtain ⟨amount,text,s,hframe,hstatus,hm⟩ := prepared_frame _ hv hs hid
  simp only at h
  generalize hu : (t.setTransactionMetadata newID).setTransactionStatus = u at h hframe hm
  have hus : u.status = .queued ∨ u.status = .scheduled := hframe ▸ hstatus
  have hua : u.queueAction = .unset := hframe ▸ ha
  have huid : u.transactionID ≠ "" := hframe ▸ hne
  have horOne := congrArg Float64.toInt? (Float64.orOne_orOne t.precision).symm
  split at h
  · rename_i hskip
    obtain ⟨db,hdb,hlast⟩ := bind_ok h
    cases hlast
    rcases recorded_of_single hn hm hus hua hdb with ⟨hzero,-⟩ | ⟨r,hr,hne,hrs,hposted⟩
    · exact absurd hpos (not_lt.mpr hzero)
    subst hframe
    exact .executed r ⟨hr.key,hr.parent,hr.kind,hr.queuedParent,hr.source,hr.destination,hr.reference,hr.currency,
      hr.action,hr.inflight,horOne.trans hr.scale,hr.sound⟩ hskip hne hrs hposted rfl
  · rename_i hskip
    have hm' : ({ u with queuedParent := queuedParentOf u }).Materialised t.resolvedAmount :=
      hm.frame rfl rfl rfl rfl rfl rfl
    obtain ⟨r,w,hr,hintent,hstored,hintended,hposted,hqueue⟩ := recorded_of_queued hm' hpos.le hus huid h
    subst hframe
    exact .queued r w ⟨hr.key,hr.parent,hr.kind,hr.queuedParent,hr.source,hr.destination,hr.reference,hr.currency,
      hr.action,hr.inflight,horOne.trans hr.scale,hr.sound⟩ (eq_false_of_not_eq_true hskip) hintent hstored
      hintended hposted hqueue

/-- A parent that is not a row: nothing, or a group that will never be one. -/
structure RootParent (e : Engine) (ids : List String) (parent : String) (kind : ParentKind) : Prop where
  kind : parent = "" ∨ kind = .group
  row : ∀ x ∈ e.database.transactions, x.transactionID ≠ parent
  message : ∀ t ∈ e.queue, t.transactionID ≠ parent
  own : ∀ id ∈ ids, id ≠ parent

variable {ids : List String}

theorem rootParent_empty (h : e.Sound) (hids : ∀ id ∈ ids, FreshID e id)
    (kind : ParentKind) : RootParent e ids "" kind :=
  ⟨.inl rfl,fun x hx => id_ne_empty (h.ids x hx),fun t ht => by
    obtain ⟨i,hti⟩ := h.messages t ht
    exact id_ne_empty hti.id,fun id hid => id_ne_empty (hids id hid).form⟩

theorem rootParent_group {group : String} (h : e.groupAllowed ids group = true) :
    RootParent e ids group .group := by
  simp only [groupAllowed,and_eq_true,not_eq_true',decide_eq_false_iff_not,all_eq_true,
    decide_eq_true_eq,Option.isNone_iff_eq_none,findTransaction,Keyed.find_eq_none] at h
  obtain ⟨⟨⟨-,hids⟩,hrows⟩,hqueue⟩ := h
  exact ⟨.inr rfl,hrows,hqueue,fun id hid he => hids (he ▸ hid)⟩

variable {claims claims' : List RefundClaim}

theorem extends_of_root (hs : e.Sound) (hid : FreshID e newID) (hmem : newID ∈ ids) (hkey : r.transactionID = newID)
    (hroot : RootParent e ids r.parentTransaction r.controls.parentKind)
    (hqueued : r.controls.queuedParent = "" ∨ r.controls.queuedParent = newID ∨
      r.controls.queuedParent = r.parentTransaction)
    (hstatus : r.IsIntent ∨ r.status = .applied ∨ r.status = .inflight) (haction : r.queueAction = .unset)
    (hsound : r.Sound) (hc : Checked e.database.transactions claims r claims') :
    Extends e.queue e.database.transactions r := by
  subst hkey
  have hown : r.parentTransaction ≠ r.transactionID := Ne.symm (hroot.own _ hmem)
  refine ⟨⟨id_ne_empty hid.form,hc.freshID,hc.freshReference,fun x hx => (hid.unnamed x hx).1,
    fun x hx => (hid.unnamed x hx).2,hown⟩,.request (hroot.kind.imp_right fun hk => ⟨hk,hroot.row⟩) hstatus haction ?_,
    hsound,hid.form,fun t ht _ hne => ⟨Ne.symm (hroot.message t ht),?_⟩⟩
  · rcases hqueued with hq | hq | hq <;> rw [hq]
    · exact .inr fun x hx => id_ne_empty (hs.ids x hx)
    · exact .inl rfl
    · exact .inr hroot.row
  · rcases hqueued with hq | hq | hq <;> rw [hq]
    · obtain ⟨i,hti⟩ := hs.messages t ht
      exact Ne.symm (id_ne_empty hti.id)
    · exact hne
    · exact Ne.symm (hroot.message t ht)

/-- The row of a posting request: executed at once, or an intent that is linked to what it is found by. -/
structure RequestRow (request : Request) (reference queuedParent newID parent : String) (r : Row) : Prop where
  key : r.transactionID = newID
  parent : r.parentTransaction = parent
  reference : r.reference = reference
  action : r.queueAction = .unset
  inflight : r.controls.inflight = request.inflight
  status : if request.skipQueue then r.status = (if request.inflight then .inflight else .applied) else r.IsIntent
  queuedParent : r.controls.queuedParent = if request.skipQueue then "" else queuedParent
  distinct : request.skipQueue = true → r.source ≠ r.destination

theorem RequestRow.kind {request : Request} {reference queuedParent parent : String}
    (h : RequestRow request reference queuedParent newID parent r) :
    r.IsIntent ∨ r.status = .applied ∨ r.status = .inflight := by
  have hstatus := h.status
  split at hstatus
  · split at hstatus
    · exact .inr (.inr hstatus)
    · exact .inr (.inl hstatus)
  · exact .inl hstatus

def linkOf (group : Option String) (newID : String) : String :=
  if "bulk".toList <:+: (group.getD "").toList then group.getD "" else newID

section Roots

theorem root_extends (hs : e.Sound) (hids : e.freshIDs [newID,copyID] = true) (hr : Recorded u r)
    (hkey : u.transactionID = newID) (hua : u.queueAction = .unset)
    (hqp : u.queuedParent = "" ∨ u.queuedParent = newID ∨ u.queuedParent = u.parentTransaction)
    (hroot : RootParent e [newID,copyID] u.parentTransaction u.parentKind)
    (hstatus : r.IsIntent ∨ r.status = .applied ∨ r.status = .inflight) (hp : Posted e.database e'.database [r]) :
    Extends e.queue e.database.transactions r := by
  have hfresh := (freshIDs_spec hids).2 newID mem_cons_self
  rw [← hr.parent,← hr.kind] at hroot
  rw [← hr.parent,← hr.queuedParent] at hqp
  exact extends_of_root hs hfresh mem_cons_self (hr.key.trans hkey) hroot hqp hstatus (hr.action.trans hua) hr.sound
    hp.checked.single

theorem root_executed (hs : e.Sound) (hids : e.freshIDs [newID,copyID] = true) (hr : Recorded u r)
    (hkey : u.transactionID = newID) (hua : u.queueAction = .unset) (hqp : u.queuedParent = "")
    (hroot : RootParent e [newID,copyID] u.parentTransaction u.parentKind)
    (hstatus : r.status = if u.inflight then .inflight else .applied) (hp : Posted e.database e'.database [r])
    (hqueue : e'.queue = e.queue) : Appended e e' [r] := by
  have hstatus' : r.IsIntent ∨ r.status = .applied ∨ r.status = .inflight := by
    rw [hstatus]
    cases u.inflight
    · exact .inr (.inl rfl)
    · exact .inr (.inr rfl)
  have hx := root_extends hs hids hr hkey hua (.inl hqp) hroot hstatus' hp
  exact ⟨hp,.cons hx (.nil _),[],by rw [hqueue,append_nil],fun _ h => absurd h not_mem_nil⟩

theorem root_queued {w : Transaction} (hs : e.Sound) (hids : e.freshIDs [newID,copyID] = true) (hr : Recorded u r)
    (hkey : u.transactionID = newID) (hua : u.queueAction = .unset)
    (hqp : u.queuedParent = "" ∨ u.queuedParent = newID ∨ u.queuedParent = u.parentTransaction)
    (hroot : RootParent e [newID,copyID] u.parentTransaction u.parentKind) (hintent : r.IsIntent) (hstored : StoredAs w r)
    (hintended : w.Intended) (hp : Posted e.database e'.database [r])
    (hqueue : e'.queue = e.queue ++ (w.createQueueCopy w.reference copyID).message) :
    Appended e e' [r] := by
  have hx := root_extends hs hids hr hkey hua hqp hroot (.inl hintent) hp
  obtain ⟨hnodup,hfresh⟩ := freshIDs_spec hids
  have hcopyMem : copyID ∈ [newID,copyID] := mem_cons_of_mem _ mem_cons_self
  have hcopy := hfresh copyID hcopyMem
  have hne : newID ≠ copyID := fun he => (nodup_cons.mp hnodup).1 (he ▸ mem_singleton_self _)
  have hparent : u.parentTransaction ≠ copyID := Ne.symm (hroot.own copyID hcopyMem)
  refine ⟨hp,.cons hx (.nil _),_,hqueue,fun m hm => ⟨r,?_⟩⟩
  rw [hp.transactions]
  refine message_of_stored hstored hintended hintent hcopy (hr.parent ▸ hparent) (fun he => ?_) m hm
  rw [hr.queuedParent] at he
  rcases hqp with hq | hq | hq <;> rw [hq] at he
  · exact id_ne_empty hcopy.form he.symm
  · exact hne he
  · exact hparent he

theorem post_appended {request : Request} {group : Option String} {queuedDebit : Option ℤ} (hs : e.Sound)
    (hids : e.freshIDs [newID,copyID] = true) (hgroup : ∀ g, group = some g → e.groupAllowed [newID,copyID] g = true)
    (h : e.queueTransaction (request.transaction group) newID copyID queuedDebit = .ok e') : ∃ rs, Appended e e' rs ∧
      (∀ r ∈ rs, RequestRow request request.reference (linkOf group newID) newID (group.getD "") r) ∧ rs ≠ [] := by
  have hfresh := (freshIDs_spec hids).2
  have hroot : RootParent e [newID,copyID] (group.getD "") (if group.isSome then .group else .unset) := by
    cases group with
    | none => exact rootParent_empty hs hfresh _
    | some g => exact rootParent_group (hgroup g rfl)
  cases queueTransaction_ok hs.accounted.unique rfl rfl (.inl rfl) (id_ne_empty (hfresh newID mem_cons_self).form) h with
  | executed r recorded skip distinct status posted queue =>
    have hskip : request.skipQueue = true := skip
    refine ⟨[r],root_executed hs hids recorded rfl rfl rfl hroot status posted queue,fun x hx => ?_,cons_ne_nil _ _⟩
    obtain rfl := mem_singleton.mp hx
    exact ⟨recorded.key,recorded.parent,recorded.reference,recorded.action,recorded.inflight,
      (if_pos hskip).symm ▸ status,(if_pos hskip).symm ▸ recorded.queuedParent,fun _ => distinct⟩
  | queued r w recorded skip intent stored intended posted queue =>
    have hskip : ¬ request.skipQueue = true := not_eq_true _ ▸ skip
    refine ⟨[r],root_queued hs hids recorded rfl rfl (.inr (by rw [queuedParentOf]; split <;> simp)) hroot intent stored intended posted queue,
      fun x hx => ?_,cons_ne_nil _ _⟩
    obtain rfl := mem_singleton.mp hx
    exact ⟨recorded.key,recorded.parent,recorded.reference,recorded.action,recorded.inflight,
      (if_neg hskip).symm ▸ intent,(if_neg hskip).symm ▸ recorded.queuedParent,fun hs => absurd hs hskip⟩

theorem leg_appended {request : Request} {leg : SplitLeg} {splitID : String} {queuedDebit : Option ℤ} (hs : e.Sound)
    (hids : e.freshIDs [newID,copyID] = true) (hgroup : e.groupAllowed [newID,copyID] splitID = true)
    (h : e.processSplitLeg (request.transaction none) leg splitID newID copyID queuedDebit = .ok e') :
    ∃ rs, Appended e e' rs ∧ (∀ r ∈ rs, RequestRow request leg.reference "" newID splitID r) ∧
      (request.skipQueue = false → rs ≠ []) := by
  have hroot := rootParent_group hgroup
  have hne := id_ne_empty ((freshIDs_spec hids).2 newID mem_cons_self).form
  obtain ⟨_,hvalid,h⟩ := bind_ok h
  obtain ⟨hv,hpos,-⟩ := validate_ok hvalid
  obtain ⟨amount,text,s,hframe,hstatus,hm⟩ := prepared_frame splitID hv rfl (.inl rfl)
  simp only at h
  generalize hu : ((request.transaction none).setTransactionMetadata splitID).setTransactionStatus = t at h hframe hm
  have hleg : (t.splitLeg leg newID).Materialised leg.amount :=
    ⟨⟨hm.terms.precision,hm.terms.rate,hm.terms.limit⟩,hm.scale,rfl,rfl,rfl⟩
  have hls : (t.splitLeg leg newID).status = .queued ∨ (t.splitLeg leg newID).status = .scheduled := hframe ▸ hstatus
  have hla : (t.splitLeg leg newID).queueAction = .unset := hframe ▸ rfl
  have hlq : (t.splitLeg leg newID).queuedParent = "" := hframe ▸ rfl
  have hlp : (t.splitLeg leg newID).parentTransaction = splitID := hframe ▸ rfl
  have hli : (t.splitLeg leg newID).inflight = request.inflight := hframe ▸ rfl
  have hlk : (t.splitLeg leg newID).skipQueue = request.skipQueue := hframe ▸ rfl
  have hrootLeg : RootParent e [newID,copyID] (t.splitLeg leg newID).parentTransaction
      (t.splitLeg leg newID).parentKind := hlp.symm ▸ hroot
  rw [hlk] at h
  split at h
  · rename_i hskip
    obtain ⟨db,hdb,hlast⟩ := bind_ok h
    cases hlast
    obtain ⟨s',hframe',hs'⟩ := setTransactionStatus_frame hls
    rw [hframe'] at hdb
    rcases recorded_of_single (u := { t.splitLeg leg newID with status := s' }) hs.accounted.unique
      (hleg.frame rfl rfl rfl rfl rfl rfl) hs' hla hdb with ⟨-,rfl⟩ | ⟨r,hr,hne,hrs,hposted⟩
    · exact ⟨[],appended_nothing e,fun _ hr => absurd hr not_mem_nil,fun hq => by rw [hskip] at hq; cases hq⟩
    · refine ⟨[r],root_executed hs hids hr rfl hla hlq hrootLeg hrs hposted rfl,fun x hx => ?_,
        fun _ => cons_ne_nil _ _⟩
      obtain rfl := mem_singleton.mp hx
      have hstatus' : x.status = if request.inflight then .inflight else .applied := hli ▸ hrs
      exact ⟨hr.key,hr.parent.trans hlp,hr.reference,hr.action.trans hla,hr.inflight.trans hli,
        (if_pos hskip).symm ▸ hstatus',(if_pos hskip).symm ▸ hr.queuedParent.trans hlq,fun _ => hne⟩
  · rename_i hskip
    obtain ⟨r,w,hr,hintent,hstored,hintended,hposted,hqueue⟩ := recorded_of_queued hleg (Int.natCast_nonneg _) hls hne h
    refine ⟨[r],root_queued hs hids hr rfl hla (.inl hlq) hrootLeg hintent hstored hintended hposted hqueue,fun x hx => ?_,
      fun _ => cons_ne_nil _ _⟩
    obtain rfl := mem_singleton.mp hx
    exact ⟨hr.key,hr.parent.trans hlp,hr.reference,hr.action.trans hla,hr.inflight.trans hli,
      (if_neg hskip).symm ▸ hintent,(if_neg hskip).symm ▸ hr.queuedParent.trans hlq,fun hs => absurd hs hskip⟩

end Roots

/-- The row of an accepted refund. -/
structure RefundRow (o : Row) (skipQueue : Bool) (newID : String) (r : Row) : Prop where
  key : r.transactionID = newID
  parent : r.parentTransaction = o.transactionID
  reference : r.reference = o.transactionID ++ "_refund"
  action : r.queueAction = .unset
  status : if skipQueue then r.status = .applied else r.IsIntent
  queuedParent : r.controls.queuedParent = if skipQueue then o.controls.queuedParent else newID

variable {id : String}

theorem not_bulk (h : isTransactionID id = true) : ¬ "bulk".toList <:+: id.toList := by
  intro hinfix
  have hmem : 'u' ∈ id.toList := hinfix.subset (by decide)
  rw [isTransactionID,and_eq_true,decide_eq_true_eq,all_eq_true] at h
  obtain ⟨rest,hrest⟩ := h.1
  rw [← hrest] at hmem h
  rcases mem_append.mp hmem with hmem | hmem
  · revert hmem
    decide
  · exact absurd (h.2 'u' hmem) (by decide)

theorem reversal_origin {rows : List Row} {o : Row} (hj : Journal rows) (ho : o ∈ rows)
    (happlied : o.status = .applied) (hchild : r.ChildOf o) (hreference : r.reference = o.transactionID ++ "_refund")
    (haction : r.queueAction = .unset)
    (hinflight : r.controls.inflight = false) (hcurrency : r.currency = o.currency) (hscale : r.precision = o.precision)
    (hlink : r.IsIntent ∧ r.controls.queuedParent = r.transactionID ∨
      r.status = .applied ∧ r.controls.queuedParent = o.controls.queuedParent)
    (hc : Checked rows claims r claims') : Origin rows r := by
  have hfound : Keyed.find Row.transactionID rows r.parentTransaction = some o :=
    hchild.parent ▸ Keyed.find_of_mem hj.ids_nodup ho
  cases lifecycle_cases hc.lifecycle with
  | root parent =>
    rcases parent with hempty | hnone
    · exact absurd (hchild.parent ▸ hempty) (hj.id_ne_empty ho)
    · rw [hfound] at hnone
      cases hnone
  | reversal parent found _ _ reverses =>
    cases hfound.symm.trans found
    exact .reversal o ho hchild happlied (hlink.imp And.left And.left) haction hinflight reverses hcurrency hscale hreference
      hlink
  | completion parent found reference =>
    cases hfound.symm.trans found
    exact absurd hreference reference
  | settlement parent found reference =>
    cases hfound.symm.trans found
    exact absurd hreference reference
  | other parent found reference =>
    cases hfound.symm.trans found
    exact absurd hreference reference

variable {skipQueue : Bool}

theorem reversal_extends {o : Row} {major : Float64} (hs : e.Sound) (hid : FreshID e newID)
    (ho : o ∈ e.database.transactions) (happlied : o.status = .applied) (hr : Recorded u r)
    (hu : ∃ queuedParent, u = { prepareRefundTransaction (o.asTransaction major "" false) skipQueue newID with
      queuedParent := queuedParent })
    (hlink : r.IsIntent ∧ u.queuedParent = newID ∨ r.status = .applied ∧ u.queuedParent = o.controls.queuedParent)
    (hc : Checked e.database.transactions claims r claims') : Extends e.queue e.database.transactions r := by
  obtain ⟨queuedParent,rfl⟩ := hu
  have hkey : r.transactionID = newID := hr.key
  have hscale : r.precision = o.precision := by
    have hscale := hr.scale
    change (Float64.ofInt o.precision).orOne.toInt? = some r.precision at hscale
    rw [(hs.rows o ho).orOne,(hs.rows o ho).integral] at hscale
    exact (Option.some.inj hscale).symm
  refine extends_of_parent hs.messages (hkey ▸ hid.form) (hkey ▸ hid.unnamed) hc ho hr.parent ?_
    (reversal_origin hs.journal ho happlied ⟨hr.parent,?_⟩ hr.reference hr.action hr.inflight hr.currency hscale ?_ hc)
    hr.sound
  · rw [hr.queuedParent,hkey]
    exact (hlink.imp And.right And.right).symm
  · rw [hr.kind]
    exact fun hk => by cases hk
  · rw [hr.queuedParent,hkey]
    exact hlink

theorem reversal_appended {o : Row} {major : Float64} (hs : e.Sound) (hids : e.freshIDs [newID,copyID] = true)
    (ho : o ∈ e.database.transactions) (happlied : o.status = .applied) (h : e.queueTransaction
      (prepareRefundTransaction (o.asTransaction major "" false) skipQueue newID) newID copyID queuedDebit = .ok e') :
    ∃ r, Appended e e' [r] ∧ RefundRow o skipQueue newID r := by
  obtain ⟨hnodup,hfresh⟩ := freshIDs_spec hids
  have hnew := hfresh newID mem_cons_self
  have hcopy := hfresh copyID (mem_cons_of_mem _ mem_cons_self)
  cases queueTransaction_ok hs.accounted.unique rfl rfl (.inr rfl) (id_ne_empty hnew.form) h with
  | executed r recorded skip distinct status posted queue =>
    have hskip : skipQueue = true := skip
    have hx := reversal_extends hs hnew ho happlied recorded ⟨_,rfl⟩ (.inr ⟨status,rfl⟩) posted.checked.single
    refine ⟨r,⟨posted,.cons hx (.nil _),[],by rw [queue,append_nil],fun _ h => absurd h not_mem_nil⟩,
      recorded.key,recorded.parent,recorded.reference,recorded.action,?_,?_⟩
    · rw [if_pos hskip]
      exact status
    · rw [if_pos hskip]
      exact recorded.queuedParent
  | queued r w recorded skip intent stored intended posted queue =>
    have hskip : ¬ skipQueue = true := not_eq_true _ ▸ skip
    have hparent : queuedParentOf { prepareRefundTransaction (o.asTransaction major "" false) skipQueue newID with
        transactionID := newID } = newID := by
      exact if_neg (not_bulk (hs.ids o ho))
    have hqueued : r.controls.queuedParent = newID := recorded.queuedParent.trans hparent
    have hx := reversal_extends hs hnew ho happlied recorded ⟨_,rfl⟩ (.inl ⟨intent,hparent⟩) posted.checked.single
    refine ⟨r,⟨posted,.cons hx (.nil _),_,queue,fun m hm => ⟨r,?_⟩⟩,
      recorded.key,recorded.parent,recorded.reference,recorded.action,?_,?_⟩
    · have hrp : r.parentTransaction = o.transactionID := recorded.parent
      rw [posted.transactions]
      refine message_of_stored stored intended intent hcopy (fun he => hcopy.row o ho (hrp.symm.trans he)) (fun he => ?_) m hm
      have hsame : newID = copyID := hqueued.symm.trans he
      exact (nodup_cons.mp hnodup).1 (hsame ▸ mem_singleton_self _)
    · rw [if_neg hskip]
      exact intent
    · rw [if_neg hskip]
      exact hqueued

theorem refund_appended {refunded : Transaction → Bool} (hs : e.Sound) (hids : e.freshIDs [newID,copyID] = true)
    (h : e.refundAnswered refunded id skipQueue newID copyID queuedDebit = .ok e') : ∃ o ∈ e.database.transactions,
      o.transactionID = id ∧ o.status = .applied ∧ ∃ r, Appended e e' [r] ∧ RefundRow o skipQueue newID r := by
  obtain ⟨t,ht,h⟩ := bind_ok h
  obtain ⟨o,hfound,hread⟩ := getTransaction_ok ht
  obtain ⟨ho,hid⟩ := findTransaction_mem hfound
  obtain ⟨major,-,-,rfl⟩ := toTransaction_ok hread
  split_ifs at h with hstatus hrefunded
  have happlied := not_not.mp hstatus
  exact ⟨o,ho,hid,happlied,reversal_appended hs hids ho happlied h⟩

end LedgerForge.Engine
