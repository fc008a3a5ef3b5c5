import LedgerForge.Engine.GroupRuns
import LedgerForge.Engine.Refusals

/-! # Bulk requests

A bulk request posts its items one after the other under a batch identifier. When an item fails and the request is
atomic, the rows found through the batch identifier at that moment are reversed one after the other: holds are
voided, postings refunded through the queue.
-/

namespace LedgerForge.Engine

open Database List Row

/-- An item with the identifiers generated for it. An item with legs is split. -/
structure BulkItem where
  request : Request
  legs : List (SplitLeg × String × String)
  newID : String
  copyID : String
  queuedDebit : Option ℤ
  handover : Handover

structure BulkRequest where
  items : List BulkItem
  atomic : Bool
  inflight : Bool
  skipQueue : Bool

/-- Where a bulk request stands. A rollback counts the rows it reversed and those that were refunded before. -/
inductive BulkState
  | posting (rest : List BulkItem)
  | failing
  | rollback (pending : List String) (reversed skipped : ℕ) (fatal : Bool)
  | succeeded
  | failed (rolledBack : Bool)

/-- An item failed and the rows to reverse have not been selected yet. -/
def BulkState.isFailing : BulkState → Bool
  | .failing => true
  | _ => false

/-- The request reported a failure after a completed rollback. -/
def BulkState.isRolledBack : BulkState → Bool
  | .failed rolledBack => rolledBack
  | _ => false

/-- What the reversal of a row generates. -/
structure Generated where
  newID : String
  copyID : String
  reference : String
  queuedDebit : Option ℤ

def alreadyRefunded (e : Engine) (id : String) : Bool :=
  match e.database.getTransaction id with
  | .ok t => t.status = .applied && e.isTransactionRefunded t
  | .error _ => false

def rollbackTargets (e : Engine) (batchID : String) (inflight : Bool) : List String :=
  (if inflight then e.database.getInflightTransactionsByParentID batchID
    else e.database.getRefundableTransactionsByParentID batchID).map transactionID

def rollbackOperation (inflight : Bool) (id : String) (g : Generated) : Operation :=
  if inflight then .void id g.reference g.newID g.queuedDebit else .refund id false g.newID g.copyID g.queuedDebit

/-- One step of a rollback. Rows that were refunded before are skipped, every other error is reported. -/
def rollbackStep (inflight : Bool) (g : Generated) (e : Engine) :
    List String → ℕ → ℕ → Bool → Engine × BulkState
  | [], reversed, skipped, fatal => (e,.failed (!fatal && (skipped = 0 || 0 < reversed)))
  | id :: pending, reversed, skipped, fatal =>
    if e.admissible (rollbackOperation inflight id g) then
      match e.perform (rollbackOperation inflight id g) with
      | .ok e' => (e',.rollback pending (reversed+1) skipped fatal)
      | .error _ =>
        if !inflight && e.alreadyRefunded id then (e,.rollback pending reversed (skipped+1) fatal)
        else (e,.rollback pending reversed skipped true)
    else (e,.rollback (id :: pending) reversed skipped fatal)

namespace BulkRequest

variable (b : BulkRequest) (batchID : String)

/-- The flags of the bulk request replace those of its items. -/
def request (item : BulkItem) : Request := { item.request with inflight := b.inflight, skipQueue := b.skipQueue }

def queueItem (e : Engine) (item : BulkItem) : Engine × Option String :=
  if b.skipQueue then
    let ops := if item.legs = [] then [Operation.post (b.request item) (some batchID) item.newID item.copyID item.queuedDebit]
      else item.legs.map fun (leg,legID,copyID) =>
        .postLeg (b.request item) leg item.newID legID copyID item.queuedDebit
    ((e.processTxns ops).1,(e.processTxns ops).2.2 <|> item.handover.schedule)
  else e.submit (if item.legs = [] then .single (b.request item) (some batchID) item.newID item.copyID
    else .split (b.request item) item.newID item.legs) item.handover

def tick (g : Generated) : Engine × BulkState → Engine × BulkState
  | (e,.posting []) => (e,.succeeded)
  | (e,.posting (item :: rest)) =>
    match b.queueItem batchID e item with
    | (e',none) => (e',.posting rest)
    | (e',some _) => (e',if b.atomic then .failing else .failed false)
  | (e,.failing) => (e,.rollback (e.rollbackTargets batchID b.inflight) 0 0 false)
  | (e,.rollback pending reversed skipped fatal) => rollbackStep b.inflight g e pending reversed skipped fatal
  | (e,.succeeded) => (e,.succeeded)
  | (e,.failed rolledBack) => (e,.failed rolledBack)

end BulkRequest

/-- The request moves on, or something else happens. -/
inductive BulkEvent
  | tick (g : Generated)
  | other (op : Operation)

namespace BulkRequest

variable (b : BulkRequest) (batchID : String)

def react (s : Engine × BulkState) : BulkEvent → Engine × BulkState
  | .tick g => b.tick batchID g s
  | .other op => (s.1.step op,s.2)

def history (e : Engine) (events : List BulkEvent) : Engine × BulkState :=
  events.foldl (b.react batchID) (e,.posting b.items)

/-- The identifiers below which the rows of the request are: the batch, and every item that is split. -/
def groups : List String := batchID :: (b.items.filter fun item => item.legs ≠ []).map BulkItem.newID

/-- The rollback starts when the items have ended, and nobody else disturbs the batch or posts into it. -/
def Clean (s : Engine × BulkState) : BulkEvent → Prop
  | .tick _ => s.2.isFailing = true → Drained (b.groups batchID) s.1.database.transactions
  | .other op => op.Undisturbing (b.groups batchID) s.1 ∧ ∀ g ∈ op.group, g ∉ b.groups batchID

def CleanRun : Engine × BulkState → List BulkEvent → Prop
  | _, [] => True
  | s, ev :: events => b.Clean batchID s ev ∧ CleanRun (b.react batchID s ev) events

instance (s : Engine × BulkState) : (ev : BulkEvent) → Decidable (b.Clean batchID s ev)
  | .tick _ => inferInstanceAs (Decidable (_ → _))
  | .other _ => inferInstanceAs (Decidable (_ ∧ _))

instance decidableCleanRun : (s : Engine × BulkState) → (events : List BulkEvent) → Decidable (b.CleanRun batchID s events)
  | _, [] => .isTrue trivial
  | s, ev :: events => @instDecidableAnd _ _ _ (decidableCleanRun (b.react batchID s ev) events)

end BulkRequest

section Item

variable {b : BulkRequest} {batchID : String} {e : Engine} {item : BulkItem}

def BulkRequest.operation (b : BulkRequest) (batchID : String) (item : BulkItem) : Operation :=
  .post (b.request item) (some batchID) item.newID item.copyID (if b.skipQueue then item.queuedDebit else none)

/-- Posting a plain item is refused, or it is one operation whose message may not reach the queue. -/
theorem BulkRequest.queueItem_plain (hs : e.Sound) (hplain : item.legs = []) :
    ∃ e', (e' = e ∨ e.admissible (b.operation batchID item) = true ∧ Step e (b.operation batchID item) e') ∧
      (b.queueItem batchID e item).1.database = e'.database ∧
      ∀ t ∈ (b.queueItem batchID e item).1.queue, t ∈ e'.queue := by
  have hone : ∀ op : Operation, (∃ err, e.processTxns [op] = (e,[],some err)) ∨
      ∃ e', e.admissible op = true ∧ Step e op e' ∧ e.processTxns [op] = (e',[e'.queue.drop e.queue.length],none) := by
    intro op
    unfold processTxns
    split
    · exact .inl ⟨_,rfl⟩
    rename_i e' h
    obtain ⟨ha,h⟩ := ok_of_check h
    exact .inr ⟨e',ha,perform_ok hs ha h,rfl⟩
  unfold queueItem
  split
  · rename_i hskip
    rw [operation,if_pos hskip]
    rcases hone (.post (b.request item) (some batchID) item.newID item.copyID item.queuedDebit) with ⟨err,he⟩ | ⟨e',ha,hstep,he⟩
    · simp only [he]
      exact ⟨e,.inl rfl,rfl,fun t ht => ht⟩
    · simp only [he]
      exact ⟨e',.inr ⟨ha,hstep⟩,rfl,fun t ht => ht⟩
  · rename_i hskip
    have hrequest : { b.request item with skipQueue := false } = b.request item := by
      rw [request,Bool.eq_false_iff.mpr hskip]
    rw [operation,if_neg hskip,submit,Submission.legs,hrequest]
    rcases hone (.post (b.request item) (some batchID) item.newID item.copyID none) with ⟨err,he⟩ | ⟨e',ha,hstep,he⟩
    · rw [he]
      exact ⟨e,.inl rfl,rfl,fun t ht => ht⟩
    rw [he]
    refine ⟨e',.inr ⟨ha,hstep⟩,rfl,fun t ht => ?_⟩
    -- the queue takes the message or not
    obtain ⟨sent,hsent⟩ := hstep.queue
    rcases mem_append.mp ht with ht | ht
    · exact hsent ▸ mem_append_left _ ht
    have hm := (enqueueTransactions_sub _ 0 _).subset ht
    rw [flatten_cons,flatten_nil,append_nil] at hm
    exact mem_of_mem_drop hm

end Item

/-- What the row of an item looks like. -/
structure ItemRow (b : BulkRequest) (batchID : String) (r : Row) : Prop where
  inflight : r.controls.inflight = b.inflight
  status : if b.skipQueue then r.status = (if b.inflight then .inflight else .applied) else r.IsIntent
  queuedParent : r.controls.queuedParent = if b.skipQueue then "" else batchID
  reference : r.reference ≠ batchID ++ "_refund"

/-- The batch identifier was generated after everything that refers to it. -/
structure BulkRequest.Fresh (b : BulkRequest) (e : Engine) (batchID : String) : Prop where
  bulk : "bulk".toList <:+: batchID.toList
  unused : batchID ∉ e.usedIDs
  references : ∀ item ∈ b.items, item.request.reference ≠ batchID ++ "_refund"

/-- What holds of the engine throughout a bulk request of plain items. -/
structure BatchSound (b : BulkRequest) (batchID : String) (e : Engine) : Prop where
  sound : e.Sound
  undisturbed : Undisturbed [batchID] e.database.transactions
  items : ∀ r ∈ e.database.transactions, r.parentTransaction = batchID → ItemRow b batchID r

section Batch

variable {b : BulkRequest} {batchID : String} {e e' : Engine} {op : Operation}

theorem reserved_of_bulk (hbulk : "bulk".toList <:+: batchID.toList) : ∀ g ∈ [batchID], e.Reserved g := by
  intro g hg
  obtain rfl := mem_singleton.mp hg
  left
  exact Bool.eq_false_iff.mpr fun hform => not_bulk hform hbulk

theorem BatchSound.other (h : BatchSound b batchID e) (hbulk : "bulk".toList <:+: batchID.toList)
    (hop : op.Undisturbing [batchID] e) (hgroup : ∀ g, op.group = some g → g ∉ [batchID]) : BatchSound b batchID (e.step op) := by
  have hstep := step_ok h.sound op
  refine ⟨hstep.sound h.sound,undisturbed_step h.sound h.undisturbed (reserved_of_bulk hbulk) hop,fun r hr hparent => ?_⟩
  cases hstep with
  | created id currency created =>
    rw [created,(createBalance_frame e.database id currency).1] at hr
    exact h.items r hr hparent
  | appended rs appended writes =>
    rw [appended.posted.transactions] at hr
    rcases mem_append.mp hr with hr | hr
    · exact h.items r hr hparent
    · exact absurd (mem_singleton.mpr hparent) ((writes r hr).no_item h.undisturbed hgroup)

/-- Posting a plain item adds at most its row. -/
theorem BatchSound.queueItem (h : BatchSound b batchID e) (hbulk : "bulk".toList <:+: batchID.toList) {item : BulkItem}
    (hplain : item.legs = []) (hreference : item.request.reference ≠ batchID ++ "_refund") :
    BatchSound b batchID (b.queueItem batchID e item).1 := by
  obtain ⟨e',hcase,hdb,hqueue⟩ := @BulkRequest.queueItem_plain b batchID e item h.sound hplain
  have hkept : BatchSound b batchID e' := by
    rcases hcase with rfl | ⟨ha,hstep⟩
    · exact h
    refine ⟨hstep.sound h.sound,
      hstep.undisturbed h.sound h.undisturbed (reserved_of_bulk hbulk) (rooted_of_admissible ha) trivial,fun r hr hparent => ?_⟩
    cases hstep with
    | created id currency created =>
      rw [created,(createBalance_frame e.database id currency).1] at hr
      exact h.items r hr hparent
    | appended rs appended writes =>
      rw [appended.posted.transactions] at hr
      rcases mem_append.mp hr with hr | hr
      · exact h.items r hr hparent
      have hrow := writes r hr
      refine ⟨hrow.inflight,hrow.status,?_,hrow.reference ▸ hreference⟩
      rw [hrow.queuedParent]
      exact if_congr Iff.rfl rfl (if_pos hbulk)
  obtain ⟨hsound,hundisturbed,hitems⟩ := hkept
  refine ⟨?_,hdb ▸ hundisturbed,hdb ▸ hitems⟩
  have hrestricted := hsound.restrict hqueue
  have hsame : (b.queueItem batchID e item).1 = { e' with queue := (b.queueItem batchID e item).1.queue } := by
    rw [← hdb]
  exact hsame ▸ hrestricted

/-- When the items have ended, the rollback finds everything they did. -/
theorem BatchSound.effect_selected (h : BatchSound b batchID e) {a : Row} (ha : a ∈ e.database.transactions)
    (heffect : EffectOf [batchID] e.database.transactions a) : a.transactionID ∈ e.rollbackTargets batchID b.inflight := by
  have hj := h.sound.journal
  have hfound : a.status = (if b.inflight then .inflight else .applied) ∧
      (a.parentTransaction = batchID ∧ a.reference ≠ a.parentTransaction ++ "_refund" ∨
        a.controls.queuedParent = batchID ∧ a.reference ≠ a.controls.queuedParent ++ "_refund") := by
    obtain ⟨hposted,hitem | ⟨i,hi,hintent,hitem,hparent⟩⟩ := heffect
    · have hparent := mem_singleton.mp hitem
      have hrow := h.items a ha hparent
      have hstatus := hrow.status
      split at hstatus
      · exact ⟨hstatus,.inl ⟨hparent,hparent ▸ hrow.reference⟩⟩
      · exact absurd hstatus (not_intent_of_posted hposted)
    · have hrow := h.items i hi (mem_singleton.mp hitem)
      have hlink : i.controls.queuedParent = batchID := by
        have hstatus := hrow.status
        have hqueued := hrow.queuedParent
        split at hstatus
        · split at hstatus <;> rcases hintent with hs | hs <;> rw [hs] at hstatus <;> cases hstatus
        · rename_i hskip
          rwa [if_neg hskip] at hqueued
      cases hj.intentChild hi hintent ha hparent with
      | execution _ status _ _ reference queuedParent =>
        rw [hrow.inflight] at status
        exact ⟨status,.inr ⟨queuedParent.trans hlink,reference ▸ queue_ne_refund _ _⟩⟩
      | rejection status => rcases hposted with hs | hs <;> rw [status] at hs <;> cases hs
      | completion queued =>
        exact absurd queued.2 (h.undisturbed.uncommitted i (mem_family_of_group hj hi hitem) (.inr queued.1))
      | void _ status => rcases hposted with hs | hs <;> rw [status] at hs <;> cases hs
  obtain ⟨hstatus,hlink⟩ := hfound
  refine mem_map_of_mem ?_
  cases hb : b.inflight with
  | true =>
    rw [hb] at hstatus
    have hheld : a.heldUnder batchID = true := by
      rcases hlink with ⟨hp,-⟩ | ⟨hp,-⟩ <;> simp [heldUnder,hstatus,hp]
    rw [getInflightTransactionsByParentID,if_pos (any_eq_true.mpr ⟨a,ha,hheld⟩)]
    exact mem_reverse.mpr (mem_filter.mpr ⟨ha,hheld⟩)
  | false =>
    rw [hb] at hstatus
    have hrefundable : a.refundable batchID = true := by
      rcases hlink with ⟨hp,hr⟩ | ⟨hp,hr⟩
      · simp only [refundable,Bool.and_eq_true,Bool.or_eq_true,decide_eq_true_eq]
        exact ⟨hstatus,.inl (.inr ⟨hp,hr⟩)⟩
      · simp only [refundable,Bool.and_eq_true,Bool.or_eq_true,decide_eq_true_eq]
        exact ⟨hstatus,.inr ⟨hp,hr⟩⟩
    exact mem_reverse.mpr (mem_filter.mpr ⟨ha,hrefundable⟩)

/-- When the items have ended, the rollback finds nothing else. -/
theorem BatchSound.selected_effect (h : BatchSound b batchID e) (hd : Drained [batchID] e.database.transactions) {id : String}
    (hid : id ∈ e.rollbackTargets batchID b.inflight) : ∃ a ∈ e.database.transactions, a.transactionID = id ∧
      EffectOf [batchID] e.database.transactions a ∧ a.status = if b.inflight then .inflight else .applied := by
  have hj := h.sound.journal
  have hapart : ∀ a ∈ e.database.transactions, a.transactionID ≠ batchID := fun a ha he =>
    h.undisturbed.apart a ha (mem_singleton.mpr he)
  obtain ⟨a,ha,rfl⟩ := mem_map.mp hid
  cases hb : b.inflight with
  | true =>
    rw [hb,if_pos rfl,getInflightTransactionsByParentID] at ha
    split at ha
    · obtain ⟨hmem,hheld⟩ := mem_filter.mp (mem_reverse.mp ha)
      simp only [heldUnder,Bool.and_eq_true,Bool.or_eq_true,decide_eq_true_eq] at hheld
      obtain ⟨hstatus,(hown | hparent) | hlink⟩ := hheld
      · exact absurd hown (hapart a hmem)
      · exact ⟨a,hmem,rfl,⟨.inr hstatus,.inl (mem_singleton.mpr hparent)⟩,hstatus⟩
      · exact ⟨a,hmem,rfl,(h.undisturbed.linked a hmem (mem_singleton.mpr hlink)).2 (.inr hstatus),hstatus⟩
    · -- a queued hold that has ended is no candidate
      exfalso
      obtain ⟨hmem,hqueued⟩ := mem_filter.mp (mem_reverse.mp ha)
      simp only [queuedHoldUnder,Bool.and_eq_true,Bool.or_eq_true,decide_eq_true_eq,Bool.not_eq_true',
        any_eq_false] at hqueued
      obtain ⟨⟨⟨⟨hstatus,hinflight⟩,hown | hparent⟩,hrejected⟩,hheld⟩ := hqueued
      · exact hapart a hmem hown
      have hf := mem_family_of_group hj hmem (mem_singleton.mpr hparent)
      obtain ⟨c,hc,hca,hterminal⟩ := hd a hf (.inl hstatus)
      cases hj.intentChild hmem (.inl hstatus) hc hca with
      | execution _ status =>
        rw [hinflight] at status
        exact hheld c hc ⟨hca,status⟩
      | rejection status reference => exact hrejected c hc ⟨reference,status⟩
      | completion queued => exact h.undisturbed.uncommitted a hf (.inr hstatus) queued.2
      | void _ status => rcases hterminal with hs | hs | hs <;> rw [status] at hs <;> cases hs
  | false =>
    rw [hb] at ha
    obtain ⟨hmem,hrefundable⟩ := mem_filter.mp (mem_reverse.mp ha)
    simp only [refundable,Bool.and_eq_true,Bool.or_eq_true,decide_eq_true_eq] at hrefundable
    obtain ⟨hstatus,(hown | ⟨hparent,-⟩) | ⟨hlink,-⟩⟩ := hrefundable
    · exact absurd hown (hapart a hmem)
    · exact ⟨a,hmem,rfl,⟨.inl hstatus,.inl (mem_singleton.mpr hparent)⟩,hstatus⟩
    · exact ⟨a,hmem,rfl,(h.undisturbed.linked a hmem (mem_singleton.mpr hlink)).2 (.inl hstatus),hstatus⟩

/-- What holds during a rollback: nothing more is executed, the rows still to be reversed are executions, and
without an error all others have been reversed. -/
structure RollbackSound (b : BulkRequest) (batchID : String) (e : Engine) (pending : List String) (fatal : Bool) : Prop where
  batch : BatchSound b batchID e
  ended : ItemsEnded [batchID] e.database.transactions
  targets : ∀ id ∈ pending, ∃ a ∈ e.database.transactions, a.transactionID = id ∧
    EffectOf [batchID] e.database.transactions a ∧ a.status = if b.inflight then .inflight else .applied
  covered : fatal = false → ∀ a ∈ e.database.transactions, EffectOf [batchID] e.database.transactions a →
    a.transactionID ∈ pending ∨ ∃ c ∈ e.database.transactions, c.parentTransaction = a.transactionID

variable {pending : List String} {fatal : Bool} {id : String}

theorem RollbackSound.step (h : RollbackSound b batchID e pending fatal) (hbulk : "bulk".toList <:+: batchID.toList)
    (hop : op.Undisturbing [batchID] e) (hgroup : ∀ g, op.group = some g → g ∉ [batchID]) :
    RollbackSound b batchID (e.step op) pending fatal := by
  have hstep := step_ok h.batch.sound op
  obtain ⟨hended,hstored⟩ := hstep.effects_stored h.batch.sound h.batch.undisturbed h.ended hgroup
  obtain ⟨rs,hrs⟩ := hstep.rows
  refine ⟨h.batch.other hbulk hop hgroup,hended,fun id hid => ?_,fun hf a ha heffect => ?_⟩
  · obtain ⟨a,ha,hrest,heffect,hstatus⟩ := h.targets id hid
    exact ⟨a,hstep.rows.subset ha,hrest,hrs ▸ heffect.append rs,hstatus⟩
  · obtain ⟨hold,heffect⟩ := hstored a ha heffect
    exact (h.covered hf a hold heffect).imp_right fun ⟨c,hc,hparent⟩ => ⟨c,hstep.rows.subset hc,hparent⟩

theorem RollbackSound.drop (h : RollbackSound b batchID e (id :: pending) fatal)
    (hchild : ∃ c ∈ e.database.transactions, c.parentTransaction = id) : RollbackSound b batchID e pending fatal := by
  refine ⟨h.batch,h.ended,fun x hx => h.targets x (mem_cons_of_mem _ hx),fun hf a ha heffect => ?_⟩
  rcases h.covered hf a ha heffect with hmem | hc
  · rcases mem_cons.mp hmem with he | hmem
    · exact .inr (he ▸ hchild)
    · exact .inl hmem
  · exact .inr hc

theorem RollbackSound.undisturbing (h : RollbackSound b batchID e (id :: pending) fatal) (g : Generated) :
    (rollbackOperation b.inflight id g).Undisturbing [batchID] e ∧ (rollbackOperation b.inflight id g).group = none := by
  obtain ⟨a,ha,rfl,heffect,hstatus⟩ := h.targets id mem_cons_self
  have hsame : ∀ x ∈ family [batchID] e.database.transactions, x.transactionID = a.transactionID → x = a := fun x hx he =>
    h.batch.sound.journal.eq_of_id (mem_of_mem_family hx) ha he
  unfold rollbackOperation
  split
  · refine ⟨fun i hi he => ?_,rfl⟩
    exact hsame i hi he ▸ not_intent_of_posted heffect.1
  · refine ⟨fun o ho he => ?_,rfl⟩
    exact hsame o ho he ▸ ⟨heffect,fun hskip => by cases hskip⟩

variable {g : Generated}

theorem rollback_child {inflight : Bool} (hs : e.Sound)
    (ha : e.admissible (rollbackOperation inflight id g) = true)
    (hp : e.perform (rollbackOperation inflight id g) = .ok e') : ∃ c ∈ e'.database.transactions, c.parentTransaction = id := by
  rw [admissible,Bool.and_eq_true] at ha
  have hids := ha.1
  unfold rollbackOperation at hids hp
  split at hids
  · rename_i hinflight
    rw [if_pos hinflight] at hp
    obtain ⟨db',hdb,rfl⟩ := withDatabase_ok hp
    obtain ⟨r,happended,hsettling,-⟩ := void_appended hs ((freshIDs_spec hids).2 g.newID mem_cons_self) hdb
    exact ⟨r,happended.posted.transactions ▸ mem_append_right _ (mem_singleton_self r),hsettling.parent⟩
  · rename_i hinflight
    rw [if_neg hinflight] at hp
    obtain ⟨o,-,hid,-,r,happended,hrow⟩ := refund_appended hs hids hp
    exact ⟨r,happended.posted.transactions ▸ mem_append_right _ (mem_singleton_self r),hrow.parent.trans hid⟩

theorem child_of_alreadyRefunded (h : e.alreadyRefunded id = true) :
    ∃ c ∈ e.database.transactions, c.parentTransaction = id := by
  unfold alreadyRefunded at h
  split at h
  · rename_i t ht
    rw [Bool.and_eq_true,isTransactionRefunded,any_eq_true] at h
    obtain ⟨-,c,hc,hmatch⟩ := h
    simp only [Bool.and_eq_true,decide_eq_true_eq] at hmatch
    obtain ⟨r,hr,hread⟩ := getTransaction_ok ht
    obtain ⟨major,-,-,rfl⟩ := toTransaction_ok hread
    exact ⟨c,hc,hmatch.1.1.trans (findTransaction_mem hr).2⟩
  · cases h

def BulkInvariant (b : BulkRequest) (batchID : String) (e : Engine) : BulkState → Prop
  | .posting rest => BatchSound b batchID e ∧ ∀ item ∈ rest, item.legs = [] ∧ item.request.reference ≠ batchID ++ "_refund"
  | .failing => BatchSound b batchID e
  | .rollback pending _ _ fatal => RollbackSound b batchID e pending fatal
  | .succeeded => True
  | .failed rolledBack => rolledBack = true → RollbackSound b batchID e [] false

theorem rollbackStep_invariant {reversed skipped : ℕ} (hbulk : "bulk".toList <:+: batchID.toList)
    (h : RollbackSound b batchID e pending fatal) :
    BulkInvariant b batchID (rollbackStep b.inflight g e pending reversed skipped fatal).1
      (rollbackStep b.inflight g e pending reversed skipped fatal).2 := by
  cases pending with
  | nil =>
    intro hdone
    rw [Bool.and_eq_true,Bool.not_eq_true'] at hdone
    exact hdone.1 ▸ h
  | cons id pending =>
    rw [rollbackStep]
    split
    · rename_i ha
      split
      · rename_i e' hp
        obtain ⟨hop,hgroup⟩ := h.undisturbing g
        have hstep : e.step (rollbackOperation b.inflight id g) = e' := by rw [step,if_pos ha,hp]
        have hkept := h.step hbulk hop fun g' hg' => by rw [hgroup] at hg'; cases hg'
        exact (hstep ▸ hkept).drop (rollback_child h.batch.sound ha hp)
      · split
        · rename_i hskip
          rw [Bool.and_eq_true] at hskip
          exact h.drop (child_of_alreadyRefunded hskip.2)
        · exact ⟨h.batch,h.ended,fun x hx => h.targets x (mem_cons_of_mem _ hx),by simp⟩
    · exact h

theorem tick_invariant {s : BulkState} (hbulk : "bulk".toList <:+: batchID.toList)
    (h : BulkInvariant b batchID e s) (hclean : s.isFailing = true → Drained [batchID] e.database.transactions) :
    BulkInvariant b batchID (b.tick batchID g (e,s)).1 (b.tick batchID g (e,s)).2 := by
  cases s with
  | posting rest =>
    obtain ⟨hbatch,hitems⟩ := h
    cases rest with
    | nil => trivial
    | cons item rest =>
      obtain ⟨hplain,hreference⟩ := hitems item mem_cons_self
      have hkept := hbatch.queueItem hbulk hplain hreference
      rw [BulkRequest.tick]
      split
      · rename_i e' he
        rw [he] at hkept
        exact ⟨hkept,fun x hx => hitems x (mem_cons_of_mem _ hx)⟩
      rename_i e' err he
      rw [he] at hkept
      split
      · exact hkept
      · exact fun hf => by cases hf
  | failing =>
    have hd := hclean rfl
    have hj := h.sound.journal
    refine ⟨h,fun i hi hintent hitem => ?_,fun id hid => h.selected_effect hd hid,
      fun _ a ha heffect => .inl (h.effect_selected ha heffect)⟩
    exact hd i (mem_family_of_group hj hi hitem) hintent
  | rollback pending reversed skipped fatal => exact rollbackStep_invariant hbulk h
  | succeeded => trivial
  | failed rolledBack => exact h

theorem other_invariant {s : BulkState} (hbulk : "bulk".toList <:+: batchID.toList) (h : BulkInvariant b batchID e s)
    (hop : op.Undisturbing [batchID] e) (hgroup : ∀ g, op.group = some g → g ∉ [batchID]) :
    BulkInvariant b batchID (e.step op) s := by
  cases s with
  | posting rest => exact ⟨h.1.other hbulk hop hgroup,h.2⟩
  | failing => exact BatchSound.other h hbulk hop hgroup
  | rollback pending reversed skipped fatal => exact RollbackSound.step h hbulk hop hgroup
  | succeeded => trivial
  | failed rolledBack => exact fun hr => (h hr).step hbulk hop hgroup

theorem react_invariant {s : Engine × BulkState} {events : List BulkEvent} (hbulk : "bulk".toList <:+: batchID.toList)
    (hgroups : b.groups batchID = [batchID]) (h : BulkInvariant b batchID s.1 s.2) (hclean : b.CleanRun batchID s events) :
    BulkInvariant b batchID (events.foldl (b.react batchID) s).1 (events.foldl (b.react batchID) s).2 := by
  induction events generalizing s with
  | nil => exact h
  | cons ev events ih =>
    obtain ⟨hone,hrest⟩ := hclean
    refine ih ?_ hrest
    cases ev with
    | tick g =>
      rw [BulkRequest.Clean,hgroups] at hone
      exact tick_invariant hbulk h hone
    | other op =>
      rw [BulkRequest.Clean,hgroups] at hone
      exact other_invariant hbulk h hone.1 hone.2

end Batch

/-- Nothing refers to a batch identifier that was just generated. -/
theorem BulkRequest.Fresh.batchSound {b : BulkRequest} {e : Engine} {batchID : String} (h : b.Fresh e batchID) (hs : e.Sound) :
    BatchSound b batchID e := by
  have hunused : ∀ r ∈ e.database.transactions, r.transactionID ≠ batchID ∧ r.parentTransaction ≠ batchID ∧
      r.controls.queuedParent ≠ batchID := by
    intro r hr
    have hids := h.unused
    simp only [usedIDs,mem_append,mem_flatMap,not_or,not_exists,not_and] at hids
    have hone := hids.1 r hr
    simp only [mem_cons,not_mem_nil,or_false,not_or] at hone
    exact ⟨Ne.symm hone.1,Ne.symm hone.2.1,Ne.symm hone.2.2⟩
  have hempty : ∀ r, r ∉ family [batchID] e.database.transactions := by
    intro r hr
    have hfirst : ∀ l : List Row, (∀ x ∈ l, x.parentTransaction ≠ batchID) → family [batchID] l = [] := by
      intro l hl
      induction l using List.reverseRecOn with
      | nil => rfl
      | append_singleton l x ih =>
        have hnil := ih fun y hy => hl y (mem_append_left _ hy)
        rw [family] at hnil
        rw [family,Lineage.descendants_snoc,hnil,if_neg]
        rintro (hx | hx)
        · exact hl x (mem_append_right _ (mem_singleton_self x)) (mem_singleton.mp hx)
        · exact absurd hx not_mem_nil
    rw [hfirst _ fun x hx => (hunused x hx).2.1] at hr
    exact absurd hr not_mem_nil
  refine ⟨hs,⟨fun hg => ?_,fun r hr hg => ?_,fun r hr => absurd hr (hempty r),fun r hr => absurd hr (hempty r),
    fun r hr => absurd hr (hempty r),fun r hr => absurd hr (hempty r),fun r hr hlink => ?_⟩,fun r hr hp => ?_⟩
  · have hbulk := h.bulk
    rw [← mem_singleton.mp hg] at hbulk
    exact absurd hbulk (by decide)
  · exact (hunused r hr).1 (mem_singleton.mp hg)
  · exact absurd (mem_singleton.mp hlink) (hunused r hr).2.2
  · exact absurd hp (hunused r hr).2.1

/-- A bulk request of plain items that reports a completed rollback has no net effect once everything has ended,
if the items had ended when the rollback started and nobody disturbed the batch. -/
theorem rolled_back_bulk_nets_zero (ops : List Operation) (b : BulkRequest) (batchID : String) (events : List BulkEvent)
    (hfresh : b.Fresh (run ops) batchID) (hplain : ∀ item ∈ b.items, item.legs = [])
    (hclean : b.CleanRun batchID (run ops,.posting b.items) events)
    (hrolled : (b.history batchID (run ops) events).2.isRolledBack = true)
    (hdrained : Drained (b.groups batchID) (b.history batchID (run ops) events).1.database.transactions) (id : String) :
    netEffect (b.groups batchID) (b.history batchID (run ops) events).1.database.transactions id = 0 := by
  have hgroups : b.groups batchID = [batchID] := by
    rw [BulkRequest.groups,filter_eq_nil_iff.mpr,map_nil]
    intro item hitem hc
    exact of_decide_eq_true hc (hplain item hitem)
  have hstart : BulkInvariant b batchID (run ops) (.posting b.items) :=
    ⟨hfresh.batchSound (sound_run ops),fun item hitem => ⟨hplain item hitem,hfresh.references item hitem⟩⟩
  have hend := react_invariant hfresh.bulk hgroups hstart hclean
  rw [hgroups] at hdrained ⊢
  change BulkInvariant b batchID (b.history batchID (run ops) events).1 (b.history batchID (run ops) events).2 at hend
  generalize b.history batchID (run ops) events = s at hend hrolled hdrained ⊢
  obtain ⟨e,s⟩ := s
  cases s with
  | failed rolledBack =>
    obtain ⟨hbatch,-,-,hcovered⟩ := hend hrolled
    refine netEffect_eq_zero hbatch.sound.journal hbatch.sound.bounded (fun a ha => (hbatch.sound.rows a ha).amount)
      hbatch.undisturbed hdrained (fun a ha heffect => ?_) id
    exact (hcovered rfl a ha heffect).resolve_left not_mem_nil
  | _ => cases hrolled

/-- A transfer, and one to a balance that does not exist. -/
def failingBulk (skipQueue : Bool) : BulkRequest where
  items := [⟨transferRequest "x" 60,[],"txn_1","txn_2",none,⟨fun _ => none,none⟩⟩,
    ⟨{ transferRequest "y" 40 with destination := "bln_c" },[],"txn_3","txn_4",none,⟨fun _ => none,none⟩⟩]
  atomic := true
  inflight := false
  skipQueue := skipQueue

def bulkBalances : List Operation := [.createBalance "bln_a" "USD",.createBalance "bln_b" "USD"]

/-- Both items are posted, the rollback selects and refunds the first one, and a worker executes the refund. -/
def synchronousBulkEvents : List BulkEvent :=
  List.replicate 5 (.tick ⟨"txn_5","txn_6","",none⟩) ++ [.other (.work 0 none)]

theorem synchronous_bulk_nets_zero :
    ((failingBulk true).history "bulk_1" (run bulkBalances) synchronousBulkEvents).1.database.transactions.length = 3 ∧
    ∀ id, netEffect ((failingBulk true).groups "bulk_1")
      ((failingBulk true).history "bulk_1" (run bulkBalances) synchronousBulkEvents).1.database.transactions id = 0 :=
  ⟨by decide +kernel,rolled_back_bulk_nets_zero bulkBalances (failingBulk true) "bulk_1" synchronousBulkEvents
    ⟨by decide +kernel,by decide +kernel,by decide +kernel⟩ (by decide +kernel) (by decide +kernel) (by decide +kernel)
    (by decide +kernel)⟩

/-- The first item is still queued when the second one fails. The rollback finds nothing and reports that everything was
refunded, then a worker executes the item. -/
theorem queued_item_survives_rollback :
    let s := (failingBulk false).history "bulk_1" (run bulkBalances)
      (List.replicate 4 (.tick ⟨"txn_5","txn_6","",none⟩) ++ [.other (.work 0 none)])
    s.2.isRolledBack = true ∧ Drained ((failingBulk false).groups "bulk_1") s.1.database.transactions ∧
      netEffect ((failingBulk false).groups "bulk_1") s.1.database.transactions "bln_a" = (-60,0,0) := by
  decide +kernel

end LedgerForge.Engine
