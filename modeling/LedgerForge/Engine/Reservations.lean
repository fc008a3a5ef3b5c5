import LedgerForge.Engine.HoldAccounting

/-! # No stranded reservation

What remains of a hold can always be committed or voided, as long as no queued commit is rejected after its hold was
voided.
-/

namespace LedgerForge

open Database List Transaction Float64 Keyed

/-- What neither a settlement nor an open queued commit has taken from a hold. -/
def remainder (rows : List Row) (h : Row) : ℤ := h.minor-settledAmount rows h-openCommits rows h

namespace Engine

/-- If the transaction is a queued commit, its hold has not been voided. -/
def Unvoided (e : Engine) (id : String) : Prop :=
  ∀ q ∈ e.database.transactions, q.transactionID = id → q.IsQueuedCommit →
    e.database.isParentTransactionVoid q.parentTransaction = false
deriving Decidable

/-- The request does not reject a queued commit of a voided hold. -/
def Operation.RejectsUnvoided (e : Engine) : Operation → Prop
  | .reject message => ∀ t ∈ e.queue[message]?, e.Unvoided t.parentTransaction
  | .recover id _ exhausted _ => exhausted = true → e.Unvoided id
  | _ => True

instance decidableRejectsUnvoided (e : Engine) : (op : Operation) → Decidable (op.RejectsUnvoided e)
  | .reject message => inferInstanceAs (Decidable (∀ t ∈ e.queue[message]?, e.Unvoided t.parentTransaction))
  | .recover id _ exhausted _ => inferInstanceAs (Decidable (exhausted = true → e.Unvoided id))
  | .createBalance _ _ | .post _ _ _ _ _ | .postLeg _ _ _ _ _ _ | .work _ _ | .workBatch _ _ _ | .void _ _ _ _
  | .commit _ _ _ _ _ | .commitQueued _ _ _ _ _ | .refund _ _ _ _ _ => .isTrue trivial

variable {e : Engine}

/-- Who writes a rejection: an operation on an intent without an amount, a worker, or recovery. -/
theorem Operation.Writes.rejected {op : Operation} {r : Row} (h : op.Writes e r)
    (hr : r.status = .rejected) : ∃ i ∈ e.database.transactions, r.parentTransaction = i.transactionID ∧
      (i.minor ≤ 0 ∨ (∃ message, op = .reject message ∧ ∃ t ∈ e.queue[message]?, t.parentTransaction = i.transactionID) ∨
        ∃ copyID queuedDebit, op = .recover i.transactionID copyID true queuedDebit) := by
  have hrequest : ∀ {request : Request} {reference queuedParent id parent : String},
      RequestRow request reference queuedParent id parent r → False := fun hc => by
    rcases hc.kind with (hs | hs) | hs | hs <;> rw [hr] at hs <;> cases hs
  cases op with
  | createBalance => exact h.elim
  | post => exact (hrequest h).elim
  | postLeg => exact (hrequest h).elim
  | work =>
    obtain ⟨t,i,-,hti,hc,hminor⟩ := h
    exact ⟨i,hti.mem,hc.parent,.inl (hminor hr)⟩
  | workBatch =>
    obtain ⟨i,-,hne⟩ := h
    exact absurd hr hne
  | reject message =>
    obtain ⟨t,i,ht,hti,hc,-⟩ := h
    exact ⟨i,hti.mem,hc.parent,.inr (.inl ⟨message,rfl,t,ht,hti.copy.parent⟩)⟩
  | recover id copyID exhausted queuedDebit =>
    obtain ⟨i,rfl,hc,hcause⟩ := h
    refine ⟨i,hc.mem,hc.parent,?_⟩
    rcases hcause hr with rfl | hminor
    · exact .inr (.inr ⟨copyID,queuedDebit,rfl⟩)
    · exact .inl hminor
  | commit => have hs := h.2.1; rw [hr] at hs; cases hs
  | commitQueued => have hs := h.2.1; rw [hr] at hs; cases hs
  | void => have hs := h.2; rw [hr] at hs; cases hs
  | refund =>
    obtain ⟨o,-,-,-,hc⟩ := h
    have hs := hc.status
    split at hs
    · rw [hr] at hs
      cases hs
    · rcases hs with hs | hs <;> rw [hr] at hs <;> cases hs

theorem Sound.queuedCommit_pos (hs : e.Sound) {q : Row} (hq : q ∈ e.database.transactions)
    (hc : q.IsQueuedCommit) : 0 < q.minor := by
  obtain ⟨h,hh,hold,hparent,-⟩ := hs.journal.hold_of_queuedCommit hq hc
  apply hs.bounded.positive h hh hold
  · rw [hs.journal.inflight_action hh (.inl hold)]
    decide
  · exact mem_kids.mpr ⟨hq,hparent⟩
  · simp [settlesHold,hc.1]

/-- Appended rows keep voids final when none of them rejects a queued commit of a voided hold. -/
theorem ExtendsAll.voidsFinal {queue : List Transaction} {rows rs : List Row} {claims claims' : List RefundClaim}
    (h : ExtendsAll queue rows rs) (hc : CheckedAll rows claims rs claims') (hj : Journal rows) (hb : Bounded rows)
    (hs : ∀ r ∈ rows, r.Sound) (hf : VoidsFinal rows)
    (hr : ∀ r ∈ rs, r.status = .rejected → ∀ q ∈ rows ++ rs, q.IsQueuedCommit → r.parentTransaction = q.transactionID →
      ∀ v ∈ rows ++ rs, v.status = .void → v.parentTransaction ≠ q.parentTransaction) : VoidsFinal (rows ++ rs) := by
  induction h generalizing claims with
  | nil rows => exact (append_nil rows).symm ▸ hf
  | @cons rows rs r head tail ih =>
    cases hc with
    | cons checked rest =>
      have hbounded := (ExtendsAll.cons head (.nil _)).bounded (.cons checked (.nil _ _)) hj hb
      have hsplit : rows ++ r :: rs = rows ++ [r] ++ rs := by simp
      rw [hsplit] at hr ⊢
      apply ih rest (hj.snoc head.unused head.origin) hbounded
      · intro x hx
        rcases mem_append.mp hx with hx | hx
        · exact hs x hx
        · exact mem_singleton.mp hx ▸ head.sound
      · refine hf.append hbounded hj head.unused head.origin (fun h hh _ => (hs h hh).amount) ?_
        intro hrejected q hq hcommit hparent v hv hvoid
        have hsub : ∀ {x : Row}, x ∈ rows → x ∈ rows ++ [r] ++ rs := fun hx =>
          mem_append_left _ (mem_append_left _ hx)
        exact hr r mem_cons_self hrejected q (hsub hq) hcommit hparent v (hsub hv) hvoid
      · exact fun x hx => hr x (mem_cons_of_mem _ hx)

theorem Step.voidsFinal {e' : Engine} {op : Operation} (hs : e.Sound) (hf : VoidsFinal e.database.transactions)
    (hop : op.RejectsUnvoided e) (h : Step e op e') : VoidsFinal e'.database.transactions := by
  have hj := (h.sound hs).journal
  cases h with
  | created id currency created =>
    subst created
    exact (createBalance_frame e.database id currency).1.symm ▸ hf
  | appended rs appended writes =>
    rw [appended.posted.transactions] at hj ⊢
    apply appended.rows.voidsFinal appended.posted.checked hs.journal hs.bounded hs.rows hf
    intro r hr hrejected q hq hcommit hparent v hv hvoid he
    obtain ⟨i,hi,hri,hcause⟩ := (writes r hr).rejected hrejected
    obtain rfl := hj.eq_of_id hq (mem_append_left _ hi) (hparent.symm.trans hri)
    -- the rejection was asked for in the state before the step, where the hold has no void
    have hunvoided : e.Unvoided q.transactionID := by
      rcases hcause with hminor | ⟨message,rfl,t,ht,hid⟩ | ⟨copyID,queuedDebit,rfl⟩
      · exact absurd (hs.queuedCommit_pos hi hcommit) (not_lt.mpr hminor)
      · exact hid ▸ hop t ht
      · exact hop rfl
    have hnone := hunvoided q hi rfl hcommit
    rcases mem_append.mp hv with hv | hv
    · rw [isParentTransactionVoid,any_eq_false] at hnone
      apply hnone v hv
      simp [he,hvoid]
    obtain ⟨id,reference,newID,queuedDebit,rfl,-⟩ := (writes v hv).void hvoid
    rcases hcause with hminor | ⟨message,hop',-⟩ | ⟨copyID,queuedDebit,hop'⟩
    · exact absurd (hs.queuedCommit_pos hi hcommit) (not_lt.mpr hminor)
    all_goals cases hop'


theorem consumed_nonneg {rows : List Row} (hb : Bounded rows) {h : Row} (hh : h ∈ rows) (hold : h.status = .inflight)
    (haction : h.queueAction ≠ .commit) : 0 ≤ consumed rows h.transactionID := by
  rw [consumed_eq]
  apply sum_nonneg
  intro v hv
  obtain ⟨t,ht,rfl⟩ := mem_map.mp hv
  split
  · rename_i hc
    exact (hb.positive h hh hold haction t ht (counts_settles hc)).le
  · exact le_rfl

section Hold

variable {h : Row}

theorem Sound.converted (hs : e.Sound) (hh : h ∈ e.database.transactions) (hold : h.status = .inflight) :
    h.Converted ∧ 0 < h.minor := by
  have hposted : 0 < h.minor := by
    apply (hs.rows h hh).posted
    · rintro (hs | hs) <;> rw [hold] at hs <;> cases hs
    · rw [hold]
      decide
  exact ⟨(hs.rows h hh).converted (by rw [hold]; decide) hposted,hposted⟩

theorem Sound.remainder_eq (hs : e.Sound) (hh : h ∈ e.database.transactions) (hold : h.status = .inflight) :
    remainder e.database.transactions h = h.minor-consumed e.database.transactions h.transactionID := by
  rw [remainder,consumed_eq_settled hs.bounded hs.journal.ids_nodup hh hold]
  ring

theorem Sound.fetch_hold (hs : e.Sound) (hf : VoidsFinal e.database.transactions) (hh : h ∈ e.database.transactions)
    (hold : h.status = .inflight) (hpos : 0 < remainder e.database.transactions h) :
    e.database.fetchAndValidateInflightTransaction h.transactionID = .ok (h.asTransaction
      (ofRat (majorDecimal h.minor (ofInt h.precision)).value) "" false) := by
  obtain ⟨a,ha⟩ := (hs.rows h hh).amount
  have hget := toTransaction_of_inRange (hs.converted hh hold).1 ha ((hs.rows h hh).held hold)
  have hvoid : e.database.isParentTransactionVoid h.transactionID = false := by
    rw [isParentTransactionVoid,any_eq_false]
    intro v hv hc
    rw [Bool.and_eq_true,decide_eq_true_eq,decide_eq_true_eq] at hc
    have hfinal := hf h hh hold v hv hc.2 hc.1
    rw [hs.remainder_eq hh hold,hfinal,sub_self] at hpos
    exact lt_irrefl _ hpos
  have hfind : e.database.getTransaction h.transactionID = h.toTransaction := by
    rw [getTransaction,hs.find hh]
  have hinflight : (h.asTransaction
      (ofRat (majorDecimal h.minor (ofInt h.precision)).value) "" false).isInflightTransaction = true := by
    rw [isInflightTransaction,Bool.or_eq_true,decide_eq_true_eq]
    exact .inl hold
  rw [fetchAndValidateInflightTransaction,hfind,hget]
  change (if (!_) = true then _ else if _ then _ else _) = _
  rw [hinflight,hvoid]
  rfl

theorem Sound.validate_remainder (hs : e.Sound) (hh : h ∈ e.database.transactions) (hold : h.status = .inflight)
    (hpos : 0 < remainder e.database.transactions h) {t : Transaction} (hid : t.transactionID = h.transactionID)
    (hamount : t.preciseAmount = h.preciseAmount) :
    e.database.calculateRemainingAmount t = .ok (remainder e.database.transactions h) ∧
      ∃ t', e.database.validateAndUpdateAmount t (some (remainder e.database.transactions h)) = .ok t' := by
  obtain ⟨a,ha⟩ := (hs.rows h hh).amount
  have hleft := hs.bounded.calculateRemainingAmount hh hold ha hid hamount
  have heq := hs.remainder_eq hh hold
  rw [minor_of_some ha] at heq
  have hnonneg := consumed_nonneg hs.bounded hh hold (by rw [hs.journal.inflight_action hh (.inl hold)]; decide)
  rw [← heq] at hleft
  refine ⟨hleft,?_⟩
  have hrequest : validateRequestedAmount t (some (remainder e.database.transactions h))
      (remainder e.database.transactions h) = .ok (remainder e.database.transactions h) := by
    unfold validateRequestedAmount
    simp only
    rw [if_neg (not_lt.mpr hpos.le),if_neg hpos.ne',if_neg,if_neg (lt_irrefl _)]
    rw [hamount,ha,Option.getD_some]
    omega
  rw [validateAndUpdateAmount,hleft]
  change ∃ t', (if _ ≤ 0 then _ else _) = _
  rw [if_neg (not_le.mpr hpos),hrequest]
  exact ⟨_,rfl⟩

theorem majorText_ne_empty (a : ℤ) (precision : Float64) : majorText a precision ≠ "" := by
  intro he
  have hread := setString_majorText a precision
  rw [he] at hread
  revert hread
  exact fun h => by cases h

/-- A void that both inflight counters cover is recorded. -/
theorem recordVoid_exists {db : Database} {u : Transaction} {a p : ℤ} {cs cd : StoredBalance} {claims : List RefundClaim}
    (hn : db.UniqueBalances) (href : db.referenceExists u.reference = false) (hs : db.findBalance u.source = some cs)
    (hd : db.findBalance u.destination = some cd) (hne : u.source ≠ u.destination) (hstatus : u.status = .void)
    (hinflight : u.inflight = false) (ha : u.preciseAmount = some a) (hpos : 0 < a)
    (hdebit : a ≤ cs.value.counters.inflightDebit) (hcredit : a ≤ cd.value.counters.inflightCredit)
    (htext : u.amountString ≠ "") (hp : u.precision.toInt? = some p) (hlow : -2^63 ≤ p) (hhigh : p < 2^63)
    (hl : claimTransactionLifecycle db.transactions db.refundClaims (u.columns a p) = .ok claims)
    (hid : ∀ x ∈ db.transactions, x.transactionID ≠ u.transactionID) (queuedDebit : Option ℤ) :
    ∃ db', db.recordTransactionSingle u false queuedDebit = .ok db' := by
  have happly : (Legs.mk u (loadBalance cs queuedDebit) (loadBalance cd none)).applyTransactionToBalances =
      (none,⟨u,(loadBalance cs queuedDebit).releaseDebit a,(loadBalance cd none).releaseCredit a⟩) := by
    have hreserved : (Legs.mk u (loadBalance cs queuedDebit) (loadBalance cd none)).reservationError = none :=
      Legs.reservationError_eq_none.mpr ⟨a,ha,hpos,hdebit,hcredit⟩
    simp only [Legs.applyTransactionToBalances,hstatus,hreserved]
    exact Legs.voidLegs_of_covered ha hpos hdebit hcredit
  obtain ⟨b,happlied⟩ := Legs.applied_of_none happly
  obtain rfl : b = a := Option.some.inj (happlied.amount.symm.trans ha)
  have hpersisted : u.persisted b = u := if_pos hstatus
  have hrow : u.postedRow b p = u.columns b p := by
    rw [postedRow,hpersisted,hinflight,columns]
    simp [applicableStatus,hstatus]
  have hzero : u.isZeroPreciseAmount = false := by
    rw [isZeroPreciseAmount,ha]
    exact decide_eq_false (not_le.mpr hpos)
  obtain ⟨db',hdb,-⟩ := recordTransactionSingle_exists false hn href hs hd hne hzero happly happlied (hpersisted.symm ▸ htext)
    (hpersisted.symm ▸ hp) hlow hhigh (hrow.symm ▸ hl) hid
  exact ⟨db',hdb⟩

theorem Sound.remainder_le_held (hs : e.Sound) (hh : h ∈ e.database.transactions) (hold : h.status = .inflight)
    (endpoint : Row → String) :
    remainder e.database.transactions h ≤ held endpoint e.database.transactions (endpoint h) := by
  have hopen := openCommits_nonneg hs.bounded hh hold (hs.journal.inflight_action hh (.inl hold))
  have hterm : unsettled e.database.transactions h =
      if h.status = .inflight ∧ endpoint h = endpoint h then unsettled e.database.transactions h else 0 := by
    rw [if_pos ⟨hold,rfl⟩]
  have hle : unsettled e.database.transactions h ≤ held endpoint e.database.transactions (endpoint h) := by
    rw [hterm]
    apply single_le_sum
    · intro v hv
      obtain ⟨x,hx,rfl⟩ := mem_map.mp hv
      split
      · rename_i hc
        exact hs.unsettled_nonneg hx hc.1
      · exact le_rfl
    · exact mem_map.mpr ⟨h,hh,rfl⟩
  rw [remainder]
  rw [LedgerForge.unsettled] at hle
  omega

/-- The trigger accepts the void of the remainder. -/
theorem Sound.lifecycle_remainder (hs : e.Sound) (hh : h ∈ e.database.transactions) (hold : h.status = .inflight)
    (hpos : 0 < remainder e.database.transactions h) {r : Row} (hparent : r.parentTransaction = h.transactionID)
    (href : r.reference ≠ h.transactionID ++ "_refund") (hstatus : r.status = .void)
    (hamount : r.preciseAmount = some (remainder e.database.transactions h)) (hterms : sameTerms r h = true) :
    claimTransactionLifecycle e.database.transactions e.database.refundClaims r = .ok e.database.refundClaims := by
  obtain ⟨a,ha⟩ := (hs.rows h hh).amount
  have heq := hs.remainder_eq hh hold
  rw [minor_of_some ha] at heq
  have hfind : Keyed.find Row.transactionID e.database.transactions r.parentTransaction = some h :=
    hparent ▸ Keyed.find_of_mem hs.journal.ids_nodup hh
  have hne : r.parentTransaction ≠ "" := hparent ▸ hs.journal.id_ne_empty hh
  have haction : h.queueAction ≠ .commit := by
    rw [hs.journal.inflight_action hh (.inl hold)]
    decide
  have hsettles : settlesHold r = true := by
    rw [settlesHold,hstatus]
    rfl
  have hwithin : withinRemaining e.database.transactions r h = true := by
    rw [withinRemaining,ha]
    simp only [hamount,Option.getD_some,decide_eq_true_eq]
    omega
  have hnotqueued : ¬ (r.status = .queued ∧ r.queueAction ≠ .commit) := by
    rw [hstatus]
    exact fun hc => by cases hc.1
  rw [claimTransactionLifecycle,if_neg hne,hfind]
  simp only
  rw [if_neg href,if_neg haction,if_pos ⟨hold,hsettles⟩,claimSettlement,if_neg hnotqueued,hterms,hwithin,hamount,
    Option.getD_some]
  rw [if_neg (fun hc => hc.elim (not_le.mpr hpos) fun hf => by cases hf),if_neg (fun hf => by cases hf)]

/-- A void of the remainder is carried out, in whatever state its pools are what the holds reserve. -/
theorem Sound.void_accepted (hs : e.Sound) (hf : VoidsFinal e.database.transactions)
    (hv : VoidsRelease e.database.transactions) (hh : h ∈ e.database.transactions) (hold : h.status = .inflight)
    (hpos : 0 < remainder e.database.transactions h) (hne : h.source ≠ h.destination)
    {reference newID : String} (hid : ∀ x ∈ e.database.transactions, x.transactionID ≠ newID)
    (href : e.database.referenceExists reference = false) (hrefund : reference ≠ h.transactionID ++ "_refund")
    (queuedDebit : Option ℤ) :
    ∃ db', e.database.voidInflightTransaction h.transactionID newID reference queuedDebit = .ok db' := by
  obtain ⟨hconverted,hminor⟩ := hs.converted hh hold
  have hfetch := hs.fetch_hold hf hh hold hpos
  set t := h.asTransaction (ofRat (majorDecimal h.minor (ofInt h.precision)).value) "" false with ht
  set left := remainder e.database.transactions h with hleft
  have hremaining := (hs.validate_remainder hh hold hpos (t := t) rfl rfl).1
  -- the void has valid fields, so it carries exactly the remainder
  have hvalid : (voiding t left newID reference).validateMonetaryFields = .ok () :=
    (hs.rows h hh).valid_asTransaction hconverted hminor.le ((hs.rows h hh).held hold)
  have hmaterialised : (voiding t left newID reference).applyPrecision.2 = (voiding t left newID reference).materialise left := by
    have hresolved : (voiding t left newID reference).resolvedAmount = left := by
      exact if_pos hpos
    rw [applyPrecision_of_valid hvalid,hresolved]
  obtain ⟨hsource,hdestination⟩ := hs.accounted.endpoints h hh
  obtain ⟨cs,hcs⟩ := Option.isSome_iff_exists.mp (isSome_findBalance.mpr hsource)
  obtain ⟨cd,hcd⟩ := Option.isSome_iff_exists.mp (isSome_findBalance.mpr hdestination)
  have hdebit : left ≤ cs.value.counters.inflightDebit := by
    have hkey : cs.key = h.source := find_key hcs
    rw [(hs.inflight_held hv (find_mem hcs)).1,hkey]
    exact hs.remainder_le_held hh hold Row.source
  have hcredit : left ≤ cd.value.counters.inflightCredit := by
    have hkey : cd.key = h.destination := find_key hcd
    rw [(hs.inflight_held hv (find_mem hcd)).2,hkey]
    exact hs.remainder_le_held hh hold Row.destination
  have hscale := (hs.rows h hh).orOne
  have hlifecycle : claimTransactionLifecycle e.database.transactions e.database.refundClaims
      (((voiding t left newID reference).materialise left).columns left h.precision) = .ok e.database.refundClaims :=
    hs.lifecycle_remainder hh hold hpos rfl hrefund rfl rfl (sameTerms_iff.mpr ⟨rfl,rfl,rfl,rfl,rfl⟩)
  have hinteger : ((voiding t left newID reference).materialise left).precision.toInt? = some h.precision := by
    change (ofInt h.precision).orOne.toInt? = _
    rw [hscale]
    exact (hs.rows h hh).integral
  have hlow : -2^63 ≤ h.precision := by
    have := (hs.rows h hh).scale
    omega
  obtain ⟨db',hdb⟩ := recordVoid_exists hs.accounted.unique href hcs hcd hne rfl rfl rfl hpos hdebit hcredit
    (majorText_ne_empty _ _) hinteger hlow (hs.rows h hh).range hlifecycle hid queuedDebit
  refine ⟨db',?_⟩
  rw [voidInflightTransaction,hfetch]
  change (e.database.calculateRemainingAmount t >>= _) = _
  rw [hremaining]
  change (if _ ≤ 0 then _ else _) = _
  rw [if_neg (not_le.mpr hpos),hmaterialised]
  exact hdb

end Hold

theorem voidsFinal_run (ops : List Operation) (h : Along (fun e op => op.RejectsUnvoided e) empty ops) :
    VoidsFinal (run ops).database.transactions :=
  along_invariant (P := fun e => VoidsFinal e.database.transactions)
    (fun _ _ _ hs hf hop hstep => hstep.voidsFinal hs hf hop) (fun _ hh => absurd hh not_mem_nil) ops h

/-- After a run in which no queued commit of a voided hold is rejected, the remainder of every hold passes the
validation of a commit and of a void, and if no queued intent was voided the void of the remainder is
carried out. -/
theorem remainder_settles (ops : List Operation) (hr : Along (fun e op => op.RejectsUnvoided e) empty ops) :
    ∀ h ∈ (run ops).database.transactions, h.status = .inflight → 0 < remainder (run ops).database.transactions h →
      (∃ t, (run ops).database.fetchAndValidateInflightTransaction h.transactionID = .ok t ∧
        (run ops).database.calculateRemainingAmount t = .ok (remainder (run ops).database.transactions h) ∧
        ∃ t', (run ops).database.validateAndUpdateAmount t (some (remainder (run ops).database.transactions h)) = .ok t') ∧
      (h.source ≠ h.destination → Along (fun e op => op.VoidsHold e) empty ops →
        ∀ reference newID queuedDebit, (run ops).freshIDs [newID] = true →
          (run ops).database.referenceExists reference = false → reference ≠ h.transactionID ++ "_refund" →
          ∃ e', (run ops).perform (.void h.transactionID reference newID queuedDebit) = .ok e') := by
  intro h hh hold hpos
  have hs := sound_run ops
  have hf := voidsFinal_run ops hr
  refine ⟨⟨_,hs.fetch_hold hf hh hold hpos,hs.validate_remainder hh hold hpos rfl rfl⟩,
    fun hne hv reference newID queuedDebit hid href hrefund => ?_⟩
  have hfresh := ((freshIDs_spec hid).2 newID mem_cons_self).row
  obtain ⟨db',hdb⟩ := hs.void_accepted hf (voidsRelease_run ops hv) hh hold hpos hne hfresh href hrefund queuedDebit
  refine ⟨{ run ops with database := db' },?_⟩
  rw [perform,hdb]
  rfl

def heldAndPending : List Operation := heldFunds ++ [.commitQueued "txn_1" (some 40) "c" "txn_3" "txn_4"]

theorem held_and_pending_settles : Along (fun e op => op.RejectsUnvoided e) empty heldAndPending ∧
    (∃ h ∈ (run heldAndPending).database.transactions, h.status = .inflight ∧
      remainder (run heldAndPending).database.transactions h = 60) ∧
    ∀ h ∈ (run heldAndPending).database.transactions, h.status = .inflight →
      0 < remainder (run heldAndPending).database.transactions h →
      ∃ t, (run heldAndPending).database.fetchAndValidateInflightTransaction h.transactionID = .ok t := by
  refine ⟨by decide,by decide +kernel,fun h hh hold hpos => ?_⟩
  obtain ⟨t,ht,-⟩ := (remainder_settles heldAndPending (by decide) h hh hold hpos).1
  exact ⟨t,ht⟩

/-- The void releases what the queued commit leaves, the commit is then rejected, and what it gives back can
neither be committed nor voided. -/
theorem rejected_after_void_stranded :
    let e := run (heldAndPending ++ [.void "txn_1" "v" "txn_5" none,.reject 0])
    (∃ h ∈ e.database.transactions, h.transactionID = "txn_1" ∧ h.status = .inflight ∧
      remainder e.database.transactions h = 40) ∧
    e.database.voidInflightTransaction "txn_1" "txn_6" "w" none = .error "transaction has already been voided" ∧
    e.database.commitInflightTransaction "txn_1" (some 40) "txn_6" "w" none = .error "transaction has already been voided" ∧
    e.database.commitInflightTransactionWithQueue "txn_1" (some 40) "txn_6" "w" "txn_7" =
      .error "transaction has already been voided" := by
  refine ⟨by decide +kernel,by decide +kernel,by decide +kernel,by decide +kernel⟩

end Engine
end LedgerForge
