import LedgerForge.Engine.Workers
import LedgerForge.Storage.Writers

/-! # Commits and voids

As long as a hold or a queued commit is stored before anything refers to it, settlements and pending queued commits
stay within the hold, whatever concurrent writers do. A commit or a void that the engine accepts appends one child of
the row it names.
-/

namespace LedgerForge

open Database Writers Float64

theorem committedChildren_eq (db : Database) (id : String) :
    db.committedChildren id = db.transactions.filter (consumes db.transactions id) := rfl

theorem Bounded.calculateRemainingAmount {db : Database} (hb : Bounded db.transactions) {h : Row} (hh : h ∈ db.transactions)
    (hold : h.status = .inflight) {a : ℤ} (ha : h.preciseAmount = some a) {t : Transaction}
    (hid : t.transactionID = h.transactionID) (hamount : t.preciseAmount = h.preciseAmount) :
    db.calculateRemainingAmount t = .ok (a-consumed db.transactions h.transactionID) := by
  have htotal : db.getTotalCommittedTransactions h.transactionID = .ok (consumed db.transactions h.transactionID) := by
    rw [getTotalCommittedTransactions,committedChildren_eq,consumed]
    split
    · rename_i hnil
      rw [hnil]
      rfl
    rename_i hne
    obtain ⟨r,hr⟩ := List.exists_mem_of_ne_nil _ hne
    obtain ⟨hmem,hconsumes⟩ := List.mem_filter.mp hr
    have hsplit : r.parentTransaction = h.transactionID ∧ counts db.transactions r = true := by
      simpa [consumes,counts] using hconsumes
    have hsome := hb.amount_of_counts hh hold ha (mem_kids.mpr ⟨hmem,hsplit.1⟩) hsplit.2
    rw [if_neg]
    intro hall
    have hnone := List.all_eq_true.mp hall r hr
    rw [Option.isNone_iff_eq_none] at hnone
    rw [hnone] at hsome
    cases hsome
  rw [Database.calculateRemainingAmount,hid,htotal,hamount,ha]
  rfl

namespace Writers.Storage

/-- The rows somebody reads: the committed ones, or those together with the rows of one open transaction. -/
def Visible (s : Storage) (rows : List Row) : Prop := rows = s.rows ∨ ∃ i w, s.Open i w ∧ rows = s.view w

variable {s : Storage}

theorem Coherent.step (h : s.Coherent) {a : Action} (ho : s.Ordered a) : (s.step a).Coherent := by
  cases a with
  | begin => exact h.idle rfl fun j x hx => open_begin hx
  | insert i r => exact h.insert ho
  | commit i => exact h.commit
  | abort i => exact h.idle rfl fun j x hx => (open_set hx).imp And.right And.right

theorem Coherent.run (h : s.Coherent) {actions : List Action} (ho : OrderedRun s actions) :
    (actions.foldl Storage.step s).Coherent := by
  induction actions generalizing s with
  | nil => exact h
  | cons a rest ih => exact ih (h.step ho.1) ho.2

theorem Coherent.bounded (h : s.Coherent) {rows : List Row} (hr : s.Visible rows) : Bounded rows := by
  rcases hr with rfl | ⟨i,w,hw,rfl⟩
  · exact List.append_nil s.rows ▸ h.committed.bounded
  · exact (h.own i w hw).bounded

/-- In every state of an ordered run, every hold covers its settlements and pending commits, a queued commit
has at most one child, which repeats it, and application and trigger agree on what remains of a hold. -/
theorem settlement_bound (actions : List Action) (ho : OrderedRun .empty actions) (rows : List Row)
    (hr : (run actions).Visible rows) :
    (∀ h ∈ rows, h.status = .inflight → ∀ a, h.preciseAmount = some a →
      settledChildren rows h.transactionID+pendingCommits rows h.transactionID ≤ a) ∧
    (∀ q ∈ rows, q.IsQueuedCommit → (kids rows q.transactionID).length ≤ 1 ∧ ∀ r ∈ kids rows q.transactionID,
      r.preciseAmount = q.preciseAmount ∧ r.source = q.source ∧ r.destination = q.destination) ∧
    ∀ (db : Database) (h : Row) (a : ℤ) (t : Transaction), db.transactions = rows → h ∈ rows → h.status = .inflight →
      h.preciseAmount = some a → t.transactionID = h.transactionID → t.preciseAmount = h.preciseAmount →
      db.calculateRemainingAmount t = .ok (a-consumed rows h.transactionID) := by
  have hb := (empty_coherent.run ho).bounded hr
  refine ⟨fun h hh hold a ha => ?_,fun q hq hcommit => ?_,fun db h a t hdb hh hold ha hid hamount => ?_⟩
  · rw [← consumed_eq_add]
    exact hb.bound hh hold ha
  · obtain ⟨hlength,hcompletes⟩ := hb.commits q hq (.inr hcommit) hcommit.2
    refine ⟨hlength,fun r hr => ?_⟩
    have hr := hcompletes r hr
    simp only [completesCommit,Bool.and_eq_true,decide_eq_true_eq] at hr
    exact ⟨hr.1.1.1.1.2,hr.1.1.1.2,hr.1.1.2⟩
  · subst hdb
    exact hb.calculateRemainingAmount hh hold ha hid hamount

def plainRow (transactionID parent : String) (amount : ℤ) (status : Status) : Row where
  transactionID := transactionID
  parentTransaction := parent
  source := "a"
  destination := "b"
  reference := transactionID
  currency := "USD"
  amount := ""
  preciseAmount := some amount
  precision := 1
  rate := ofInt 1
  overdraftLimit := ofInt 0
  status := status
  queueAction := .unset
  controls := ⟨1,false,false,false,false,.unset,""⟩

def heldThenCommitted : List Action :=
  [.begin,.begin,.insert 0 (plainRow "h" "" 100 .inflight),.commit 0,.insert 1 (plainRow "c" "h" 40 .applied),.commit 1]

theorem held_then_committed_bounded : OrderedRun .empty heldThenCommitted ∧ (run heldThenCommitted).rows.length = 2 ∧
    ∀ h ∈ (run heldThenCommitted).rows, h.status = .inflight → ∀ a, h.preciseAmount = some a →
      settledChildren (run heldThenCommitted).rows h.transactionID+
        pendingCommits (run heldThenCommitted).rows h.transactionID ≤ a :=
  ⟨by decide +kernel,by decide +kernel,(settlement_bound heldThenCommitted (by decide +kernel) _ (.inl rfl)).1⟩

/-- The trigger accepts a child of an identifier that is not stored yet, and the hold that takes the identifier
afterwards is smaller than its child. -/
theorem child_before_hold_unbounded :
    let actions : List Action := [.begin,.insert 0 (plainRow "c" "h" 100 .applied),.commit 0,
      .insert 0 (plainRow "h" "" 50 .inflight),.commit 0]
    (run actions).rows = [plainRow "c" "h" 100 .applied,plainRow "h" "" 50 .inflight] ∧
      settledChildren (run actions).rows "h"+pendingCommits (run actions).rows "h" = 100 := by
  decide +kernel

end Writers.Storage
end LedgerForge

namespace LedgerForge.Engine

open VersionedStore Database Transaction

/-- What the fetch of a hold establishes about its row. -/
structure Fetched (db : Database) (id : String) (t : Transaction) (h : Row) : Prop where
  mem : h ∈ db.transactions
  key : h.transactionID = id
  read : ∃ major, RatText.setString h.amount = some major ∧ (Float64.ofRat major).isFinite = true ∧
    t = h.asTransaction (Float64.ofRat major) "" false
  inflight : h.status = .inflight ∨ h.status = .queued ∧ h.controls.inflight = true
  unvoided : db.isParentTransactionVoid id = false

theorem Fetched.target {db : Database} {id : String} {t : Transaction} {h : Row} (hf : Fetched db id t h) :
    ∃ h ∈ db.transactions, h.transactionID = id ∧ (h.status = .inflight ∨ h.status = .queued ∧ h.controls.inflight = true) :=
  ⟨h,hf.mem,hf.key,hf.inflight⟩

theorem fetchAndValidateInflightTransaction_ok {db : Database} {id : String} {t : Transaction}
    (h : db.fetchAndValidateInflightTransaction id = .ok t) : ∃ r, Fetched db id t r := by
  obtain ⟨u,hu,hrest⟩ := bind_ok h
  obtain ⟨r,hfound,hread⟩ := getTransaction_ok hu
  obtain ⟨hmem,hid⟩ := findTransaction_mem hfound
  split_ifs at hrest with hinflight hvoid
  cases hrest
  obtain ⟨major,hmajor,hinf,rfl⟩ := toTransaction_ok hread
  refine ⟨r,hmem,hid,⟨major,hmajor,hinf,rfl⟩,?_,Bool.eq_false_of_not_eq_true hvoid⟩
  simp only [Bool.not_eq_true',Bool.not_eq_false] at hinflight
  rw [isInflightTransaction,Bool.or_eq_true,Bool.and_eq_true] at hinflight
  exact hinflight.imp of_decide_eq_true (And.imp_left of_decide_eq_true)

/-- The trigger lets a settlement in below a hold, and a void also below a queued intent. -/
theorem origin_of_settling {rows : List Row} {claims claims' : List RefundClaim} {h r : Row} (hj : Journal rows)
    (hh : h ∈ rows) (hkind : h.status = .inflight ∨ h.status = .queued ∧ h.controls.inflight = true)
    (hchild : r.ChildOf h) (hinflight : r.controls.inflight = false)
    (hstatus : r.status = .void ∨ (r.status = .applied ∨ r.status = .queued) ∧ r.queueAction = .commit)
    (hwhole : r.status = .void → h.status = .inflight → consumed rows h.transactionID+r.minor = h.minor)
    (hc : Checked rows claims r claims') : Origin rows r := by
  have haction := hj.inflight_action hh hkind
  have hfound : Keyed.find Row.transactionID rows r.parentTransaction = some h :=
    hchild.parent ▸ Keyed.find_of_mem hj.ids_nodup hh
  cases lifecycle_cases hc.lifecycle with
  | root parent =>
    rcases parent with hempty | hnone
    · exact absurd (hchild.parent ▸ hempty) (hj.id_ne_empty hh)
    · rw [hfound] at hnone
      cases hnone
  | reversal parent found _ applied =>
    cases hfound.symm.trans found
    rcases hkind with hs | ⟨hs,-⟩ <;> rw [hs] at applied <;> cases applied
  | completion parent found _ queued =>
    cases hfound.symm.trans found
    rw [haction] at queued
    cases queued
  | settlement parent found _ _ hold _ _ positive terms bound =>
    cases hfound.symm.trans found
    exact .settlement h hh hchild hold hstatus positive terms bound hinflight fun hv => hwhole hv hold
  | other parent found _ _ notHold action =>
    cases hfound.symm.trans found
    rcases hstatus with hv | ⟨-,hcommit⟩
    · have hqueued := hkind.resolve_left fun hs => notHold ⟨hs,by rw [settlesHold,hv]; rfl⟩
      exact .intentVoid h hh hchild hqueued.1 hv
    · rw [action] at hcommit
      cases hcommit

section Operations

variable {e : Engine} {db' : Database} {id newID reference : String} {queuedDebit : Option ℤ}

/-- The child that a settlement request appends below a hold or an intent that will become one. -/
structure SettlingRow (rows : List Row) (id newID reference : String) (r : Row) : Prop where
  target : ∃ h ∈ rows, h.transactionID = id ∧ (h.status = .inflight ∨ h.status = .queued ∧ h.controls.inflight = true)
  key : r.transactionID = newID
  parent : r.parentTransaction = id
  reference : r.reference = reference
  link : ∀ h ∈ rows, h.transactionID = id → r.controls.queuedParent = h.controls.queuedParent

variable {t : Transaction} {amount : Option ℤ}

theorem extends_of_settling {h r : Row} {claims claims' : List RefundClaim} (hs : e.Sound) (hid : FreshID e newID) (hf : Fetched e.database id t h) (hr : SettlingRow e.database.transactions id newID reference r)
    (hkind : r.controls.parentKind ≠ .group) (hinflight : r.controls.inflight = false)
    (hqueued : r.controls.queuedParent = h.controls.queuedParent)
    (hstatus : r.status = .void ∨ (r.status = .applied ∨ r.status = .queued) ∧ r.queueAction = .commit)
    (hwhole : r.status = .void → h.status = .inflight → consumed e.database.transactions h.transactionID+r.minor = h.minor)
    (hsound : r.Sound) (hc : Checked e.database.transactions claims r claims') :
    Extends e.queue e.database.transactions r := by
  have hparent : r.parentTransaction = h.transactionID := hr.parent.trans hf.key.symm
  exact extends_of_parent hs.messages (hr.key ▸ hid.form) (hr.key ▸ hid.unnamed) hc hf.mem hparent (.inl hqueued)
    (origin_of_settling hs.journal hf.mem hf.inflight ⟨hparent,hkind⟩ hinflight hstatus hwhole hc) hsound

theorem validateRequestedAmount_ok {left a : ℤ}
    (h : validateRequestedAmount t amount left = .ok a) : a = 0 ∨ 0 < a ∧ a ≤ left := by
  cases amount with
  | none => cases h
  | some b =>
    unfold validateRequestedAmount at h
    simp only at h
    split_ifs at h with hneg hzero hmore hleft
    · cases h
      exact .inl rfl
    · cases h
      exact .inr ⟨by omega,not_lt.mp hleft⟩

theorem validateAndUpdateAmount_ok {db : Database} {t' : Transaction}
    (h : db.validateAndUpdateAmount t amount = .ok t') : ∃ left x major, db.calculateRemainingAmount t = .ok left ∧
      0 < x ∧ x ≤ left ∧ t' = { t with amount := major, preciseAmount := some x } := by
  obtain ⟨left,hleft,hrest⟩ := bind_ok h
  obtain ⟨hpos,hrest⟩ := ok_of_guard hrest
  obtain ⟨a,ha,hlast⟩ := bind_ok hrest
  cases hlast
  rw [updateTransactionAmount]
  rcases validateRequestedAmount_ok ha with rfl | ⟨hapos,hle⟩
  · exact ⟨left,left,_,hleft,not_le.mp hpos,le_rfl,rfl⟩
  · refine ⟨left,a,t.amount,hleft,hapos,hle,?_⟩
    rw [if_pos hapos.ne']

theorem commit_appended (hs : e.Sound) (hid : FreshID e newID)
    (hc : e.database.commitInflightTransaction id amount newID reference queuedDebit = .ok db') :
    ∃ r, Appended e { e with database := db' } [r] ∧ SettlingRow e.database.transactions id newID reference r ∧
      r.status = .applied ∧ r.queueAction = .commit := by
  obtain ⟨t,ht,hc⟩ := bind_ok hc
  obtain ⟨t',ht',hc⟩ := bind_ok hc
  obtain ⟨h,hf⟩ := fetchAndValidateInflightTransaction_ok ht
  obtain ⟨major,-,-,rfl⟩ := hf.read
  obtain ⟨left,x,amount',-,hpos,-,rfl⟩ := validateAndUpdateAmount_ok ht'
  have hpostable : (commitment { h.asTransaction (Float64.ofRat major) "" false with
      amount := amount', preciseAmount := some x } newID reference).Postable := ⟨rfl,rfl⟩
  cases recordTransactionSingle_ok hs.accounted.unique hpostable hc with
  | dropped _ zero => exact absurd (of_decide_eq_true zero) (not_le.mpr hpos)
  | rejected queued => cases queued
  | @posted _ r a p stored _ posted =>
    have hsound := stored.sound (fun hv => by cases hv) fun hi => by cases hi
    have hrow := stored.row
    have hsettling : SettlingRow e.database.transactions id newID reference r := 
      hrow ▸ ⟨hf.target,rfl,hf.key,rfl,fun x hx hxid => hs.journal.eq_of_id hx hf.mem (hxid.trans hf.key.symm) ▸ rfl⟩
    have hstatus : r.status = .applied ∧ r.queueAction = .commit := hrow ▸ ⟨rfl,rfl⟩
    have hx := extends_of_settling hs hid hf hsettling (hrow ▸ fun hk => by cases hk) (hrow ▸ rfl) (hrow ▸ rfl)
      (.inr ⟨.inl hstatus.1,hstatus.2⟩) (fun hv => by rw [hstatus.1] at hv; cases hv) hsound posted.checked.single
    exact ⟨r,appended_single posted hx,hsettling,hstatus⟩

theorem applyPrecision_positive {a : ℤ} (ha : t.preciseAmount = some a) (hpos : 0 < a) :
    t.applyPrecision.2.Materialised a ∧ t.applyPrecision.2 = t.materialise a ∨ t.applyPrecision.2 = t := by
  cases hv : t.validateMonetaryFields with
  | error e =>
    rw [applyPrecision_of_invalid hv]
    exact .inr rfl
  | ok =>
    have hres : t.resolvedAmount = a := by rw [resolvedAmount,ha,Option.getD_some,if_pos hpos]
    rw [applyPrecision_of_valid hv,hres]
    exact .inl ⟨materialised_materialise (validTerms_of_valid hv) a,rfl⟩

theorem void_appended (hs : e.Sound) (hid : FreshID e newID)
    (hc : e.database.voidInflightTransaction id newID reference queuedDebit = .ok db') :
    ∃ r, Appended e { e with database := db' } [r] ∧ SettlingRow e.database.transactions id newID reference r ∧
      r.status = .void ∧ ∀ h ∈ e.database.transactions, h.transactionID = id → h.status = .inflight →
        consumed e.database.transactions id+r.minor = h.minor := by
  obtain ⟨t,ht,hc⟩ := bind_ok hc
  obtain ⟨left,hremaining,hc⟩ := bind_ok hc
  obtain ⟨hleft,hc⟩ := ok_of_guard hc
  obtain ⟨h,hf⟩ := fetchAndValidateInflightTransaction_ok ht
  obtain ⟨major,-,-,rfl⟩ := hf.read
  set t := h.asTransaction (Float64.ofRat major) "" false
  obtain ⟨amount,text,minor,precision,hframe⟩ := (voiding t left newID reference).applyPrecision_frame
  have hpostable : (voiding t left newID reference).applyPrecision.2.Postable := by
    rw [hframe]
    exact rfl
  have hamount : (voiding t left newID reference).applyPrecision.2.preciseAmount = some left := by
    rcases applyPrecision_positive (t := voiding t left newID reference) rfl (not_le.mp hleft) with hm | hm
    · exact hm.1.preciseAmount
    · exact congrArg preciseAmount hm
  cases recordTransactionSingle_ok hs.accounted.unique hpostable hc with
  | dropped _ zero =>
    rw [isZeroPreciseAmount,hamount,decide_eq_true_eq] at zero
    exact absurd zero hleft
  | rejected queued => cases queued
  | @posted _ r a p stored _ posted =>
    have hvoid : (voiding t left newID reference).applyPrecision.2.status = .void := by
      rw [hframe]
      rfl
    have hm : (voiding t left newID reference).applyPrecision.2.Materialised left := by
      rcases applyPrecision_positive (t := voiding t left newID reference) rfl (not_le.mp hleft) with hm | hm
      · exact hm.1
      refine absurd ?_ stored.text
      rw [persisted,if_pos hvoid]
      exact congrArg amountString hm
    obtain rfl : left = a := stored.kept left hamount
    have hsound := stored.sound (fun _ => hm) fun hi => by rw [hframe] at hi; cases hi
    have hrow := stored.row
    rw [hframe] at hrow
    have hsettling : SettlingRow e.database.transactions id newID reference r := 
      hrow ▸ ⟨hf.target,rfl,hf.key,rfl,fun x hx hxid => hs.journal.eq_of_id hx hf.mem (hxid.trans hf.key.symm) ▸ rfl⟩
    have hstatus : r.status = .void := hrow ▸ rfl
    have hwhole : h.status = .inflight → consumed e.database.transactions h.transactionID+r.minor = h.minor := by
      intro hold
      obtain ⟨b,hb⟩ := (hs.rows h hf.mem).amount
      rw [hs.bounded.calculateRemainingAmount hf.mem hold hb rfl rfl] at hremaining
      have hra : r.minor = left := hrow ▸ rfl
      have := Except.ok.inj hremaining
      rw [minor_of_some hb]
      omega
    have hx := extends_of_settling hs hid hf hsettling (hrow ▸ fun hk => by cases hk) (hrow ▸ rfl) (hrow ▸ rfl)
      (.inl hstatus) (fun _ => hwhole) hsound posted.checked.single
    refine ⟨r,appended_single posted hx,hsettling,hstatus,fun x hx hxid => ?_⟩
    obtain rfl := hs.journal.eq_of_id hx hf.mem (hxid.trans hf.key.symm)
    exact hxid ▸ hwhole

/-- A queued commit appends its intent and enqueues a copy of it. -/
theorem commitQueued_appended {copyID : String} {message : List Transaction} (hs : e.Sound)
    (hid : FreshID e newID) (hcopy : FreshID e copyID)
    (hc : e.database.commitInflightTransactionWithQueue id amount newID reference copyID = .ok (db',message)) :
    ∃ r, Appended e ⟨db',e.queue ++ message⟩ [r] ∧ SettlingRow e.database.transactions id newID reference r ∧ r.status = .queued ∧
      r.queueAction = .commit := by
  obtain ⟨t,ht,hc⟩ := bind_ok hc
  obtain ⟨t',ht',hc⟩ := bind_ok hc
  obtain ⟨mid,hmid,hlast⟩ := bind_ok hc
  cases hlast
  obtain ⟨h,hf⟩ := fetchAndValidateInflightTransaction_ok ht
  obtain ⟨major,-,-,rfl⟩ := hf.read
  obtain ⟨left,x,amount',-,hx,-,rfl⟩ := validateAndUpdateAmount_ok ht'
  set t := { h.asTransaction (Float64.ofRat major) "" false with amount := amount', preciseAmount := some x } with hdef
  obtain ⟨r,hstored,hinserted⟩ := recordTransaction_ok hmid
  have hintended : (queuedCommitment t newID reference).Intended := by
    rcases applyPrecision_positive (t := pendingCommitment t newID reference) rfl hx with hm | hm
    · exact .positive x hx hm.1
    · exact absurd (congrArg amountString hm) hstored.amountString
  obtain ⟨amount'',text,minor,precision,hframe⟩ := (pendingCommitment t newID reference).applyPrecision_frame
  obtain ⟨a,p,-,-,-,-,hrow⟩ := hstored.columns
  have hsettling : SettlingRow e.database.transactions id newID reference r := by
    rw [hrow,queuedCommitment,hframe]
    exact ⟨hf.target,rfl,hf.key,rfl,fun x hx hxid => hs.journal.eq_of_id hx hf.mem (hxid.trans hf.key.symm) ▸ rfl⟩
  have hstatus : r.status = .queued ∧ r.queueAction = .commit ∧ r.controls.inflight = false ∧
      r.controls.parentKind = .economic ∧ r.controls.queuedParent = h.controls.queuedParent := by
    rw [hrow,queuedCommitment,hframe]
    exact ⟨rfl,rfl,rfl,rfl,rfl⟩
  obtain ⟨hqueued,hcommit,hinflight,hkind,hparent⟩ := hstatus
  have hposted := hinserted.posted (movement_of_intent (.inl hqueued))
  have hextends := extends_of_settling hs hid hf hsettling (fun hk => by rw [hkind] at hk; cases hk) hinflight hparent
    (.inr ⟨.inr hqueued,hcommit⟩) (fun hv => by rw [hqueued] at hv; cases hv) (sound_of_intended hstored hintended (.inl hqueued)) hposted.checked.single
  refine ⟨r,⟨hposted,.cons hextends (.nil _),_,rfl,fun u hu => ⟨r,?_⟩⟩,hsettling,hqueued,hcommit⟩
  rw [hposted.transactions]
  refine message_of_stored hstored hintended (.inl hqueued) hcopy (fun he => ?_) (fun he => ?_) u hu
  · exact hcopy.row h hf.mem (hf.key.trans (hsettling.parent ▸ he))
  · exact (hcopy.unnamed h hf.mem).2 (hparent ▸ he)

end Operations

end LedgerForge.Engine
