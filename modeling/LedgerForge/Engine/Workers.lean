import LedgerForge.Engine.RowSound
import LedgerForge.Journal.Bounds

/-! # The engine keeps a journal

The invariant of every reachable engine state: the rows form a journal of well-formed rows, the stored counters are their
replay, and every message is the copy of a stored intent under an identifier that no row refers to. Executing, rejecting
or recovering the copy of an intent appends one child of it, a coalesced batch one child for each of its members.
-/

namespace LedgerForge

open VersionedStore Database List

theorem Posted.checked {db db' : Database} {rows : List Row} (h : Posted db db' rows) :
    CheckedAll db.transactions db.refundClaims rows db'.refundClaims := by
  obtain ⟨mid,hrows,hclaims,hall⟩ := h.inserted
  exact hrows ▸ hclaims ▸ hall.checked

namespace Engine

def Taken (rows : List Row) (id : String) : Prop := ∃ x ∈ rows, x.transactionID = id

def Unnamed (rows : List Row) (id : String) : Prop :=
  ∀ x ∈ rows, x.parentTransaction ≠ id ∧ x.controls.queuedParent ≠ id

/-- A message is a copy of a stored intent; its identifier is only referred to once it is a row. -/
structure Message (rows : List Row) (t : Transaction) (i : Row) : Prop where
  mem : i ∈ rows
  intent : i.IsIntent
  copy : CopyOf t i
  id : isTransactionID t.transactionID = true
  free : Taken rows t.transactionID ∨ Unnamed rows t.transactionID
  money : 0 < i.minor → t.Materialised i.minor ∧ t.amount.isFinite = true

/-- A row that may be appended while the given messages are waiting. -/
structure Extends (queue : List Transaction) (rows : List Row) (r : Row) : Prop where
  unused : Unused rows r
  origin : Origin rows r
  sound : r.Sound
  id : isTransactionID r.transactionID = true
  anchored : ∀ t ∈ queue, ¬ Taken rows t.transactionID → r.transactionID ≠ t.transactionID →
    r.parentTransaction ≠ t.transactionID ∧ r.controls.queuedParent ≠ t.transactionID

/-- Rows that may be appended one after the other. -/
inductive ExtendsAll (queue : List Transaction) : List Row → List Row → Prop
  | nil (rows : List Row) : ExtendsAll queue rows []
  | cons {rows rs : List Row} {r : Row} (head : Extends queue rows r) (tail : ExtendsAll queue (rows ++ [r]) rs) :
      ExtendsAll queue rows (r :: rs)

structure Sound (e : Engine) : Prop where
  accounted : e.database.Accounted
  consistent : ∀ c ∈ e.database.balances, c.value.Consistent
  journal : Journal e.database.transactions
  bounded : Bounded e.database.transactions
  rows : ∀ r ∈ e.database.transactions, r.Sound
  ids : ∀ r ∈ e.database.transactions, isTransactionID r.transactionID = true
  messages : ∀ t ∈ e.queue, ∃ i, Message e.database.transactions t i

theorem id_ne_empty {id : String} (h : isTransactionID id = true) : id ≠ "" := by
  rintro rfl
  revert h
  decide

section Append

variable {queue : List Transaction} {rows : List Row} {r : Row}

theorem Message.append {t : Transaction} {i : Row} (h : Message rows t i) (ht : t ∈ queue) (hr : Extends queue rows r) :
    Message (rows ++ [r]) t i := by
  refine ⟨mem_append_left _ h.mem,h.intent,h.copy,h.id,?_,h.money⟩
  by_cases htaken : Taken rows t.transactionID
  · obtain ⟨x,hx,he⟩ := htaken
    exact .inl ⟨x,mem_append_left _ hx,he⟩
  by_cases he : r.transactionID = t.transactionID
  · exact .inl ⟨r,mem_append_right _ (mem_singleton_self r),he⟩
  refine .inr fun x hx => ?_
  rcases mem_append.mp hx with hx | hx
  · exact h.free.resolve_left htaken x hx
  · rw [mem_singleton.mp hx]
    exact hr.anchored t ht htaken he

theorem ExtendsAll.append {rs : List Row} (h : ExtendsAll queue rows rs) (hj : Journal rows) (hs : ∀ r ∈ rows, r.Sound)
    (hi : ∀ r ∈ rows, isTransactionID r.transactionID = true) (hm : ∀ t ∈ queue, ∃ i, Message rows t i) :
    Journal (rows ++ rs) ∧ (∀ r ∈ rows ++ rs, r.Sound) ∧
      (∀ r ∈ rows ++ rs, isTransactionID r.transactionID = true) ∧ ∀ t ∈ queue, ∃ i, Message (rows ++ rs) t i := by
  induction h with
  | nil rows =>
    rw [append_nil]
    exact ⟨hj,hs,hi,hm⟩
  | @cons rows rs r head tail ih =>
    have hsnoc : ∀ {p : Row → Prop}, (∀ x ∈ rows, p x) → p r → ∀ x ∈ rows ++ [r], p x := by
      intro p hall hp x hx
      rcases mem_append.mp hx with hx | hx
      · exact hall x hx
      · exact mem_singleton.mp hx ▸ hp
    rw [← singleton_append,← append_assoc]
    refine ih (hj.snoc head.unused head.origin) (hsnoc hs head.sound) (hsnoc hi head.id) fun t ht => ?_
    obtain ⟨i,hti⟩ := hm t ht
    exact ⟨i,hti.append ht head⟩

theorem ExtendsAll.bounded {rs : List Row} {claims claims' : List RefundClaim} (h : ExtendsAll queue rows rs)
    (hc : CheckedAll rows claims rs claims') (hj : Journal rows) (hb : Bounded rows) : Bounded (rows ++ rs) := by
  induction h generalizing claims with
  | nil rows => exact (append_nil rows).symm ▸ hb
  | @cons rows rs r head tail ih =>
    cases hc with
    | cons checked rest =>
      have hintroduced : r.Introduced rows := by
        refine ⟨fun _ => head.unused.nonempty,fun _ => head.unused.parent,fun hold => (head.sound.posted ?_ ?_).le⟩
        · rintro (hs | hs) <;> rw [hold] at hs <;> cases hs
        · rw [hold]
          intro hs
          cases hs
      rw [← singleton_append,← append_assoc]
      exact ih rest (hj.snoc head.unused head.origin) (hb.append hj.ids_nodup checked hintroduced)

theorem extends_of_parent {claims claims' : List RefundClaim} {p : Row} (hm : ∀ t ∈ queue, ∃ i, Message rows t i)
    (hid : isTransactionID r.transactionID = true) (hu : Unnamed rows r.transactionID) (hc : Checked rows claims r claims')
    (hp : p ∈ rows) (hparent : r.parentTransaction = p.transactionID)
    (hqueued : r.controls.queuedParent = p.controls.queuedParent ∨ r.controls.queuedParent = r.transactionID)
    (horigin : Origin rows r) (hsound : r.Sound) : Extends queue rows r := by
  have hunused : Unused rows r := ⟨id_ne_empty hid,hc.freshID,hc.freshReference,fun x hx => (hu x hx).1,
    fun x hx => (hu x hx).2,fun he => hc.freshID p hp (hparent ▸ he)⟩
  refine ⟨hunused,horigin,hsound,hid,fun t ht htaken hne => ⟨fun he => htaken ⟨p,hp,hparent ▸ he⟩,fun he => ?_⟩⟩
  obtain ⟨i,hti⟩ := hm t ht
  rcases hqueued with hqueued | hqueued
  · exact (hti.free.resolve_left htaken p hp).2 (hqueued ▸ he)
  · exact hne (hqueued ▸ he)

end Append

/-- One operation appended rows and messages. -/
structure Appended (e e' : Engine) (rs : List Row) : Prop where
  posted : Posted e.database e'.database rs
  rows : ExtendsAll e.queue e.database.transactions rs
  queue : ∃ ts, e'.queue = e.queue ++ ts ∧ ∀ t ∈ ts, ∃ i, Message e'.database.transactions t i

theorem empty_sound : empty.Sound :=
  ⟨empty_accounted,fun _ h => absurd h not_mem_nil,.nil,.nil,fun _ h => absurd h not_mem_nil,
    fun _ h => absurd h not_mem_nil,fun _ h => absurd h not_mem_nil⟩

theorem mem_balances_iff {db : Database} (hn : db.UniqueBalances) {c : StoredBalance} :
    c ∈ db.balances ↔ db.findBalance c.key = some c :=
  ⟨fun h => Keyed.find_of_mem hn h,fun h => Keyed.find_mem h⟩

theorem Sound.appended {e e' : Engine} {rs : List Row} (h : e.Sound) (ha : Appended e e' rs) : e'.Sound := by
  have hrows := ha.posted.transactions
  obtain ⟨hj,hs,hi,hm⟩ := ha.rows.append h.journal h.rows h.ids h.messages
  rw [← hrows] at hj hs hi hm
  have haccounted := h.accounted.posted ha.posted
  have hb := ha.rows.bounded ha.posted.checked h.journal h.bounded
  rw [← hrows] at hb
  refine ⟨haccounted,fun c hc => ?_,hj,hb,hs,hi,fun t ht => ?_⟩
  · have hfind := (mem_balances_iff haccounted.unique).mp hc
    have hkey : c.key ∈ e.database.balances.map Cell.key := by
      rw [← ha.posted.keys]
      exact mem_map_of_mem hc
    obtain ⟨c₀,hc₀,hkey₀⟩ := mem_map.mp hkey
    obtain ⟨c',hc',-,-,hconsistent⟩ := ha.posted.balances c.key c₀ (hkey₀ ▸ (mem_balances_iff h.accounted.unique).mp hc₀)
    cases hfind.symm.trans hc'
    exact hconsistent (h.consistent c₀ hc₀)
  · obtain ⟨ts,hqueue,hts⟩ := ha.queue
    rw [hqueue] at ht
    rcases mem_append.mp ht with ht | ht
    · exact hm t ht
    · exact hts t ht

theorem createBalance_frame (db : Database) (id currency : String) :
    (db.createBalance id currency).transactions = db.transactions ∧
      ∀ c ∈ (db.createBalance id currency).balances, c ∈ db.balances ∨ c.value.Consistent := by
  rw [createBalance]
  split
  · exact ⟨rfl,fun c hc => .inl hc⟩
  refine ⟨rfl,fun c hc => ?_⟩
  rcases mem_append.mp hc with hc | hc
  · exact .inl hc
  · rw [mem_singleton.mp hc]
    exact .inr ⟨rfl,rfl⟩

theorem Sound.created {e : Engine} (h : e.Sound) (id currency : String) :
    Sound { e with database := e.database.createBalance id currency } := by
  obtain ⟨hrows,hbalances⟩ := createBalance_frame e.database id currency
  refine ⟨h.accounted.createBalance id currency,fun c hc => (hbalances c hc).elim (h.consistent c) fun h => h,?_,?_,?_,?_,?_⟩
  · exact hrows.symm ▸ h.journal
  · exact hrows.symm ▸ h.bounded
  · exact hrows.symm ▸ h.rows
  · exact hrows.symm ▸ h.ids
  · exact hrows.symm ▸ h.messages

end Engine
end LedgerForge

namespace LedgerForge.Engine

open VersionedStore Database List Transaction

section Copies

variable {queue : List Transaction} {rows : List Row} {claims claims' : List RefundClaim} {t : Transaction} {i r : Row}

theorem Message.unnamed (h : Message rows t i) (hid : r.transactionID = t.transactionID) (hc : Checked rows claims r claims') :
    Unnamed rows r.transactionID := by
  rcases h.free with ⟨x,hx,he⟩ | hfree
  · exact absurd (he.trans hid.symm) (hc.freshID x hx)
  · exact hid ▸ hfree

theorem Message.postable (hj : Journal rows) (h : Message rows t i) : t.Postable ∧ t.status ≠ .void := by
  have hstatus := h.copy.status
  have haction := h.copy.action
  have hinflight := h.copy.inflight
  rcases hj.intent_action h.mem h.intent with hplain | ⟨-,hcommit⟩
  · rw [hplain] at hstatus haction
    rcases h.intent with hs | hs <;> rw [hs] at hstatus <;> simp [Transaction.Postable,hstatus,haction]
  · rw [hcommit] at hstatus haction hinflight
    simp [Transaction.Postable,hstatus,haction,hinflight]

variable {a p : ℤ}

theorem repeats_of_posted (hi : i.Sound) (hcopy : CopyOf t i) (hv : t.status ≠ .void) (h : PostedAs t r a p) :
    r.Repeats i := by
  obtain ⟨x,hx⟩ := hi.amount
  have ha : x = a := h.kept x (hcopy.preciseAmount.trans hx)
  have hp : p = i.precision := by
    have hprecision := h.precision
    rw [persisted,if_neg hv] at hprecision
    change t.precision.orOne.toInt? = some p at hprecision
    rw [hcopy.precision,hi.orOne,hi.integral] at hprecision
    exact (Option.some.inj hprecision).symm
  rw [h.row]
  exact ⟨hcopy.source,hcopy.destination,hcopy.currency,hp,ha ▸ hx.symm⟩

theorem origin_of_posted (hj : Journal rows) (hi : i.Sound) (hm : Message rows t i) (h : PostedAs t r a p)
    (hc : Checked rows claims r claims') : Origin rows r := by
  have hrepeats := repeats_of_posted hi hm.copy (hm.postable hj).2 h
  have hstatus := hm.copy.status
  have hinflight := hm.copy.inflight
  have hrow := h.row
  have hparent : r.parentTransaction = i.transactionID := hrow ▸ hm.copy.parent
  have hchild : r.ChildOf i := ⟨hparent,hrow ▸ hm.copy.kind⟩
  have hreference : r.reference = i.reference ++ "_q" := hrow ▸ hm.copy.reference
  have hstored : r.status = if t.inflight then .inflight else applicableStatus t.status := by rw [hrow]; rfl
  have haction : r.queueAction = i.queueAction := hrow ▸ hm.copy.action
  have hqueued : r.controls.queuedParent = i.controls.queuedParent := hrow ▸ hm.copy.queuedParent
  rcases hj.intent_action hm.mem hm.intent with hplain | hcommit
  · refine .execution i hm.mem hchild hm.intent hplain ?_ (haction.trans hplain) hrepeats hreference hqueued
    rw [hplain] at hstatus hinflight
    rw [hstored,hinflight,hstatus]
    rcases hm.intent with hs | hs <;> rw [hs] <;> rfl
  · rw [hcommit.2] at hstatus hinflight
    have hfound : Keyed.find Row.transactionID rows r.parentTransaction = some i :=
      hparent ▸ Keyed.find_of_mem hj.ids_nodup hm.mem
    refine .completion i hm.mem hchild hcommit ?_ (haction.trans hcommit.2) hrepeats hreference ?_ hqueued
    · rw [hstored,hinflight,hstatus]
      rfl
    · -- the trigger can only have gone through its branch for children of queued commits
      cases lifecycle_cases hc.lifecycle with
      | root parent =>
        rcases parent with hempty | hnone
        · exact absurd (hparent ▸ hempty) (hj.id_ne_empty hm.mem)
        · rw [hfound] at hnone
          cases hnone
      | reversal parent found _ applied =>
        cases hfound.symm.trans found
        rw [hcommit.1] at applied
        cases applied
      | completion parent found _ _ _ only =>
        cases hfound.symm.trans found
        exact only
      | settlement parent found _ unqueued =>
        cases hfound.symm.trans found
        exact absurd hcommit.2 unqueued
      | other parent found _ unqueued =>
        cases hfound.symm.trans found
        exact absurd hcommit.2 unqueued

theorem Message.extends_posted (hj : Journal rows) (hi : i.Sound) (hq : ∀ t ∈ queue, ∃ i, Message rows t i)
    (hm : Message rows t i) (h : PostedAs t r a p) (hc : Checked rows claims r claims') : Extends queue rows r := by
  have hid : r.transactionID = t.transactionID := by rw [h.row]; rfl
  have hvoid := (hm.postable hj).2
  refine extends_of_parent hq (hid ▸ hm.id) (hm.unnamed hid hc) hc hm.mem (h.row ▸ hm.copy.parent)
    (.inl (h.row ▸ hm.copy.queuedParent)) (origin_of_posted hj hi hm h hc) (h.sound (fun hv => absurd hv hvoid) fun _ => ⟨hvoid,?_⟩)
  obtain ⟨x,hx⟩ := hi.amount
  have hminor : i.minor = a := by
    rw [Row.minor,hx]
    exact h.kept x (hm.copy.preciseAmount.trans hx)
  exact hminor ▸ (hm.money (hminor ▸ h.positive)).1

theorem Message.extends_rejected (hi : i.Sound) (hq : ∀ t ∈ queue, ∃ i, Message rows t i)
    (hm : Message rows t i) (h : RejectedAs t r) (hc : Checked rows claims r claims') : Extends queue rows r := by
  obtain ⟨hsound,hstatus,hid,hparent,hkind,hreference,hqueued,hinflight⟩ := h.sound hm.copy hi
  exact extends_of_parent hq (hid ▸ hm.id) (hm.unnamed hid hc) hc hm.mem hparent (.inl hqueued)
    (.rejection i hm.mem ⟨hparent,hkind ▸ hm.copy.kind⟩ hm.intent hstatus hreference hqueued fun hplain =>
      hinflight.trans (hm.copy.inflight.trans (by rw [hplain]; rfl))) hsound

end Copies

/-- A generated identifier is in use nowhere. -/
structure FreshID (e : Engine) (id : String) : Prop where
  form : isTransactionID id = true
  row : ∀ x ∈ e.database.transactions, x.transactionID ≠ id
  unnamed : Unnamed e.database.transactions id
  message : ∀ t ∈ e.queue, t.transactionID ≠ id

variable {e : Engine} {t : Transaction} {r : Row} {copyID : String} {db' : Database} {queuedDebit : String → Option ℤ}

theorem freshIDs_spec {ids : List String} (h : e.freshIDs ids = true) :
    ids.Nodup ∧ ∀ id ∈ ids, FreshID e id := by
  rw [freshIDs,Bool.and_eq_true,decide_eq_true_eq,all_eq_true] at h
  refine ⟨h.1,fun id hid => ?_⟩
  have hspec := h.2 id hid
  simp only [Bool.and_eq_true,Bool.not_eq_true',decide_eq_false_iff_not,usedIDs,mem_append,mem_flatMap,
    mem_cons,not_mem_nil,or_false,not_or,not_exists,not_and] at hspec
  obtain ⟨hform,hrows,hqueue⟩ := hspec
  exact ⟨hform,fun x hx => Ne.symm (hrows x hx).1,fun x hx => ⟨Ne.symm (hrows x hx).2.1,Ne.symm (hrows x hx).2.2⟩,
    fun t ht => Ne.symm (hqueue t ht).1⟩

theorem materialised_createQueueCopy {a : ℤ} (h : t.Materialised a) (reference copyID : String) :
    (t.createQueueCopy reference copyID).Materialised a ∧ (t.createQueueCopy reference copyID).amount = t.amount := by
  rw [createQueueCopy]
  split
  all_goals exact ⟨h.frame rfl rfl rfl rfl rfl rfl,rfl⟩

/-- The message for an intent that was just stored. -/
theorem message_of_stored {u : Transaction} (hs : StoredAs u r) (hu : u.Intended)
    (hi : r.IsIntent) (hid : FreshID e copyID) (hparent : r.parentTransaction ≠ copyID) (hqueued : r.controls.queuedParent ≠ copyID) :
    ∀ m ∈ (u.createQueueCopy u.reference copyID).message, Message (e.database.transactions ++ [r]) m r := by
  intro m hm
  rw [message] at hm
  split at hm
  · rename_i hfinite
    obtain rfl := mem_singleton.mp hm
    have hcopy : CopyOf (u.createQueueCopy u.reference copyID) r := by
      rw [hs.asTransaction]
      exact copyOf_createQueueCopy r _ _ _ copyID
    have hkey : (u.createQueueCopy u.reference copyID).payload.transactionID = copyID :=
      createQueueCopy_transactionID u u.reference copyID
    refine ⟨mem_append_right _ (mem_singleton_self r),hi,hcopy.payload,(congrArg _ hkey).trans hid.form,
      .inr fun x hx => ?_,fun hpos => ⟨?_,hfinite⟩⟩
    · rw [hkey]
      rcases mem_append.mp hx with hx | hx
      · exact hid.unnamed x hx
      · rw [mem_singleton.mp hx]
        exact ⟨hparent,hqueued⟩
    · obtain ⟨a,p,ha,-,-,-,rfl⟩ := hs.columns
      cases hu with
      | positive b _ hm =>
        obtain rfl : a = b := Option.some.inj (ha.symm.trans hm.preciseAmount)
        exact (materialised_createQueueCopy hm u.reference copyID).1.frame rfl rfl rfl rfl rfl rfl
      | zero b _ _ preciseAmount =>
        obtain rfl : a = 0 := Option.some.inj (ha.symm.trans preciseAmount)
        exact absurd hpos (lt_irrefl 0)
  · exact absurd hm not_mem_nil

/-- The child that executing or rejecting a copy of an intent appends. -/
structure ChildRow (rows : List Row) (i r : Row) : Prop where
  mem : i ∈ rows
  intent : i.IsIntent
  parent : r.parentTransaction = i.transactionID
  reference : r.reference = i.reference ++ "_q"
  status : r.status = .applied ∨ r.status = .inflight ∨ r.status = .rejected

theorem appended_single (hp : Posted e.database db' [r])
    (hx : Extends e.queue e.database.transactions r) : Appended e { e with database := db' } [r] :=
  ⟨hp,.cons hx (.nil _),[],(append_nil _).symm,fun _ h => absurd h not_mem_nil⟩

theorem appended_nothing (e : Engine) : Appended e e [] :=
  ⟨.refl _,.nil _,[],(append_nil _).symm,fun _ h => absurd h not_mem_nil⟩

variable {i : Row}

theorem rejected_appended (h : e.Sound)
    (hm : Message e.database.transactions t i) (hr : RejectedAs t r) (hi : Inserted e.database db' r) :
    Appended e { e with database := db' } [r] ∧ ChildRow e.database.transactions i r ∧ r.status = .rejected := by
  have hsound := h.rows i hm.mem
  obtain ⟨-,hstatus,-,hparent,-,hreference,-⟩ := hr.sound hm.copy hsound
  have hposted := hi.posted (movement_of_rejected hstatus)
  have hx := hm.extends_rejected hsound h.messages hr (hposted.checked.single)
  exact ⟨appended_single hposted hx,⟨hm.mem,hm.intent,hparent,hreference,.inr (.inr hstatus)⟩,hstatus⟩

theorem status_of_posted {a p : ℤ} (h : e.Sound)
    (hm : Message e.database.transactions t i) (hr : PostedAs t r a p) : r.status = .applied ∨ r.status = .inflight := by
  have hv := (hm.postable h.journal).1
  rw [hr.row,postedRow]
  rw [Transaction.Postable] at hv
  cases t.inflight with
  | true => exact .inr rfl
  | false =>
    have hne := (hm.postable h.journal).2
    cases hs : t.status <;> simp_all [applicableStatus]

theorem outcome_appended (h : e.Sound)
    (hm : Message e.database.transactions t i) (ho : SingleOutcome e.database t true db') :
    ∃ rs, Appended e { e with database := db' } rs ∧
      ∀ r ∈ rs, ChildRow e.database.transactions i r ∧ (r.status = .rejected → i.minor ≤ 0) := by
  have hsound := h.rows i hm.mem
  cases ho with
  | dropped => exact ⟨[],appended_nothing e,fun _ hr => absurd hr not_mem_nil⟩
  | @rejected _ r _ zero stored inserted =>
    obtain ⟨happended,hchild,-⟩ := rejected_appended h hm stored inserted
    refine ⟨[r],happended,fun x hx => ?_⟩
    obtain rfl := mem_singleton.mp hx
    obtain ⟨a,ha⟩ := hsound.amount
    rw [isZeroPreciseAmount,hm.copy.preciseAmount,ha] at zero
    refine ⟨hchild,fun _ => ?_⟩
    rw [Row.minor,ha]
    exact of_decide_eq_true zero
  | @posted _ r a p stored distinct posted =>
    have hx := hm.extends_posted h.journal hsound h.messages stored (posted.checked.single)
    have hstatus := status_of_posted h hm stored
    refine ⟨[r],appended_single posted hx,fun x hx => ?_⟩
    obtain rfl := mem_singleton.mp hx
    refine ⟨⟨hm.mem,hm.intent,stored.row ▸ hm.copy.parent,stored.row ▸ hm.copy.reference,hstatus.imp_right .inl⟩,
      fun hr => ?_⟩
    rcases hstatus with hs | hs <;> rw [hr] at hs <;> cases hs

theorem work_appended {queuedDebit : Option ℤ} (h : e.Sound)
    (hm : Message e.database.transactions t i) (hw : e.database.recordTransactionSingle t true queuedDebit = .ok db') :
    ∃ rs, Appended e { e with database := db' } rs ∧
      ∀ r ∈ rs, ChildRow e.database.transactions i r ∧ (r.status = .rejected → i.minor ≤ 0) :=
  outcome_appended h hm (recordTransactionSingle_ok h.accounted.unique (hm.postable h.journal).1 hw)

theorem Sound.find (h : e.Sound) (hr : r ∈ e.database.transactions) :
    e.database.findTransaction r.transactionID = some r := Keyed.find_of_mem h.journal.ids_nodup hr

theorem reject_appended (h : e.Sound)
    (hm : Message e.database.transactions t i) (hr : e.database.handleTransactionRejection t = .ok db') :
    ∃ r, Appended e { e with database := db' } [r] ∧ ChildRow e.database.transactions i r ∧ r.status = .rejected := by
  have hreject : e.database.rejectTransaction t = .ok db' := by
    rw [handleTransactionRejection] at hr
    split at hr
    · rename_i t' ht'
      rwa [withIntentControls_copy hm.copy (h.find hm.mem) ht'] at hr
    · exact hr
  obtain ⟨r,hstored,hinserted⟩ := recordTransaction_ok hreject
  exact ⟨r,rejected_appended h hm hstored hinserted⟩

theorem message_of_intent (h : e.Sound)
    (hi : i ∈ e.database.transactions) (hintent : i.IsIntent) (ht : i.toQueuedTransaction = .ok t) (hid : FreshID e copyID) :
    Message e.database.transactions (t.createQueueCopy t.reference copyID) i := by
  have hmoney := (h.rows i hi).materialised_of_queued hintent (t := t)
  obtain ⟨amount,text,rfl⟩ := (h.rows i hi).readable hintent t ht
  refine ⟨hi,hintent,copyOf_createQueueCopy i amount text false copyID,?_,.inr ?_,fun hpos => ?_⟩
  · rw [createQueueCopy_transactionID]
    exact hid.form
  · rw [createQueueCopy_transactionID]
    exact hid.unnamed
  · obtain ⟨hm,hfinite⟩ := hmoney hpos ht
    obtain ⟨hcopy,hamount⟩ := materialised_createQueueCopy hm i.reference copyID
    exact ⟨hcopy,hamount.symm ▸ hfinite⟩

theorem recover_appended {id : String} {exhausted : Bool} {queuedDebit : Option ℤ}
    (h : e.Sound) (hid : FreshID e copyID)
    (hr : e.database.processStuckTransaction id copyID exhausted queuedDebit = .ok db') :
    ∃ rs, Appended e { e with database := db' } rs ∧ ∀ r ∈ rs, ∃ i, i.transactionID = id ∧
      ChildRow e.database.transactions i r ∧ (r.status = .rejected → exhausted = true ∨ i.minor ≤ 0) := by
  rw [processStuckTransaction] at hr
  split at hr
  · cases hr
  rename_i i hfound
  obtain ⟨hi,hiid⟩ := findTransaction_mem hfound
  split at hr
  · rename_i hqueued
    obtain ⟨t,ht,hrest⟩ := bind_ok hr
    have hm := message_of_intent h hi (.inl hqueued.1) ht hid
    split at hrest
    · rename_i hzero
      obtain ⟨r,hstored,hinserted⟩ := recordTransaction_ok hrest
      obtain ⟨happended,hchild,-⟩ := rejected_appended h hm hstored hinserted
      refine ⟨[r],happended,fun x hx => ⟨i,hiid,?_⟩⟩
      obtain rfl := mem_singleton.mp hx
      refine ⟨hchild,fun _ => ?_⟩
      rcases Bool.or_eq_true _ _ ▸ hzero with hzero | hzero
      · obtain ⟨amount,text,rfl⟩ := (h.rows i hi).readable (.inl hqueued.1) t ht
        obtain ⟨a,ha⟩ := (h.rows i hi).amount
        have hamount : (i.asTransaction amount text false).preciseAmount = some a := ha
        rw [isZeroPreciseAmount,hamount] at hzero
        rw [Row.minor,ha]
        exact .inr (of_decide_eq_true hzero)
      · exact .inl hzero
    · split at hrest
      · cases hrest
        exact ⟨[],appended_nothing e,fun _ hr => absurd hr not_mem_nil⟩
      · obtain ⟨rs,happended,hrs⟩ := work_appended h hm (processQueuedTransaction_copy hm.copy (h.find hm.mem) hrest)
        exact ⟨rs,happended,fun r hr => ⟨i,hiid,(hrs r hr).1,fun hs => .inr ((hrs r hr).2 hs)⟩⟩
  · cases hr
    exact ⟨[],appended_nothing e,fun _ hr => absurd hr not_mem_nil⟩

theorem loadBalancesForQueuedBatch_ok {db : Database} {ids : List String}
    {loaded : List Balance} (h : db.loadBalancesForQueuedBatch queuedDebit ids = .ok loaded) :
    loaded.map Balance.balanceID = ids ∧
      ∀ b ∈ loaded, ∃ c, db.findBalance b.balanceID = some c ∧ b = loadBalance c (queuedDebit b.balanceID) := by
  induction ids generalizing loaded with
  | nil =>
    cases h
    exact ⟨rfl,fun _ hb => absurd hb not_mem_nil⟩
  | cons id ids ih =>
    rw [loadBalancesForQueuedBatch,mapM_cons] at h
    obtain ⟨b,hb,hrest⟩ := bind_ok h
    obtain ⟨bs,hbs,hlast⟩ := bind_ok hrest
    cases hlast
    obtain ⟨hids,hreads⟩ := ih hbs
    split at hb
    · rename_i c hc
      cases hb
      have hkey := loadBalance_id hc (queuedDebit id)
      refine ⟨?_,forall_mem_cons.mpr ⟨⟨c,?_,?_⟩,hreads⟩⟩
      · rw [map_cons,hids,hkey]
      · rw [hkey]
        exact hc
      · rw [hkey]
    · cases hb

theorem collectQueuedCoalescingBalanceIDs_spec (ts : List Transaction) :
    (collectQueuedCoalescingBalanceIDs ts).Nodup ∧ ∀ id ∈ collectQueuedCoalescingBalanceIDs ts, id ≠ "" := by
  rw [collectQueuedCoalescingBalanceIDs]
  refine ⟨(mergeSort_perm _ _).nodup_iff.mpr (nodup_dedup _),fun id hid => ?_⟩
  rw [mem_mergeSort,mem_dedup,mem_filter] at hid
  exact of_decide_eq_true hid.2

variable {ts : List Transaction} {rs : List Row}

theorem batch_extends {queue : List Transaction} {rows : List Row} {claims claims' : List RefundClaim}
    (h : List.Forall₂ (fun t r => ∃ a p, PostedAs t r a p) ts rs) (hc : CheckedAll rows claims rs claims')
    (hts : ∀ t ∈ ts, t ∈ queue) (hj : Journal rows) (hs : ∀ r ∈ rows, r.Sound)
    (hm : ∀ t ∈ queue, ∃ i, Message rows t i) : ExtendsAll queue rows rs := by
  induction h generalizing rows claims with
  | nil => exact .nil _
  | @cons t r ts rs hposted _ ih =>
    cases hc with
    | cons head tail =>
      obtain ⟨a,p,hposted⟩ := hposted
      obtain ⟨i,hti⟩ := hm t (hts t mem_cons_self)
      have hx := hti.extends_posted hj (hs i hti.mem) hm hposted head
      have hsound : ∀ x ∈ rows ++ [r], x.Sound := by
        intro x hx'
        rcases mem_append.mp hx' with hx' | hx'
        · exact hs x hx'
        · exact mem_singleton.mp hx' ▸ hx.sound
      refine .cons hx (ih tail (fun u hu => hts u (mem_cons_of_mem _ hu)) (hj.snoc hx.unused hx.origin) hsound
        fun u hu => ?_)
      obtain ⟨j,huj⟩ := hm u hu
      exact ⟨j,huj.append hu hx⟩

theorem ExtendsAll.mono {queue queue' : List Transaction} {rows : List Row} (h : ExtendsAll queue rows rs)
    (hsub : ∀ t ∈ queue', t ∈ queue) : ExtendsAll queue' rows rs := by
  induction h with
  | nil rows => exact .nil _
  | cons head _ ih =>
    exact .cons ⟨head.unused,head.origin,head.sound,head.id,fun t ht => head.anchored t (hsub t ht)⟩ ih

theorem mapM_ok_mem {α β : Type} {f : α → Except String β} {xs : List α} {ys : List β} (h : xs.mapM f = .ok ys) :
    ∀ y ∈ ys, ∃ x ∈ xs, f x = .ok y := by
  induction xs generalizing ys with
  | nil =>
    cases h
    exact fun _ hy => absurd hy not_mem_nil
  | cons x xs ih =>
    rw [mapM_cons] at h
    obtain ⟨y,hy,hrest⟩ := bind_ok h
    obtain ⟨ys',hys,hlast⟩ := bind_ok hrest
    cases hlast
    intro z hz
    rcases mem_cons.mp hz with rfl | hz
    · exact ⟨x,mem_cons_self,hy⟩
    · obtain ⟨x',hx',hf⟩ := ih hys z hz
      exact ⟨x',mem_cons_of_mem _ hx',hf⟩

theorem exists_of_forall₂ {α β : Type} {p : α → β → Prop} {xs : List α} {ys : List β} (h : List.Forall₂ p xs ys) :
    ∀ y ∈ ys, ∃ x ∈ xs, p x y := by
  induction h with
  | nil => exact fun _ hy => absurd hy not_mem_nil
  | @cons x y xs ys hxy _ ih =>
    refine forall_mem_cons.mpr ⟨⟨x,mem_cons_self,hxy⟩,fun z hz => ?_⟩
    obtain ⟨x',hx',hp⟩ := ih z hz
    exact ⟨x',mem_cons_of_mem _ hx',hp⟩

theorem coalescingSibling_ok {id : String} (h : e.Sound) (hid : FreshID e copyID)
    (ht : e.database.coalescingSibling id copyID = .ok t) :
    (∃ i, Message e.database.transactions t i) ∧ canCoalesceQueuedTransaction t = .ok () := by
  rw [coalescingSibling] at ht
  split at ht
  · cases ht
  rename_i i hfound
  obtain ⟨hi,-⟩ := findTransaction_mem hfound
  obtain ⟨hqueued,ht⟩ := ok_of_check ht
  obtain ⟨u,hu,hrest⟩ := bind_ok ht
  obtain ⟨_,hcan,hcopy⟩ := bind_ok hrest
  cases hcopy
  have hm := message_of_intent h hi (.inl hqueued.1) hu hid
  refine ⟨⟨i,hm⟩,?_⟩
  have hplain : u.queueAction = .unset := by
    rw [canCoalesceQueuedOriginal] at hcan
    split_ifs at hcan with _ haction
    exact not_not.mp haction
  rw [canCoalesceQueuedTransaction,if_neg (hm.copy.parent ▸ h.journal.id_ne_empty hi)]
  rw [createQueueCopy,if_neg fun hc => by rw [hplain] at hc; cases hc]
  exact hcan

theorem postedAs_of_finalised {finals : List Transaction} (hf : List.Forall₂ Finalised ts finals)
    (hs : List.Forall₂ StoredAs finals rs) : List.Forall₂ (fun t r => ∃ a p, PostedAs t r a p) ts rs := by
  induction hf generalizing rs with
  | nil =>
    cases hs
    exact .nil
  | cons head _ ih =>
    cases hs with
    | cons hstored hrest =>
      obtain ⟨source,destination,a,hsource,hdestination,hpos,hkept,rfl,hamount⟩ := head.executed
      exact .cons ⟨a,postedAs_of_stored hsource hdestination hpos hkept (fun _ => head.valid) hamount hstored⟩ (ih hrest)

/-- A prepared batch that the database accepts appends one child for each of its members, whenever its
balances were read. -/
theorem prepared_batch_appended {loaded : List Balance}
    {existing : String → Bool} {st : BatchState} (h : e.Sound)
    (hts : ∀ t ∈ ts, (∃ i, Message e.database.transactions t i) ∧ canCoalesceQueuedTransaction t = .ok ())
    (hids : loaded.map Balance.balanceID = collectQueuedCoalescingBalanceIDs ts)
    (hfresh : ∀ b ∈ loaded, Fresh e.database.balances b.cell) (hst : prepareQueuedBatch existing ts loaded = .ok st)
    (hb : e.database.recordTransactionsWithBalanceSet st.finalized st.balances = .ok db') :
    ∃ rs, Appended e { e with database := db' } rs ∧
      ∀ r ∈ rs, ∃ i, ChildRow e.database.transactions i r ∧ r.status ≠ .rejected := by
  obtain ⟨hnodup,hnonempty⟩ := collectQueuedCoalescingBalanceIDs_spec ts
  obtain ⟨hmoved,hfinal⟩ := prepareQueuedBatch_ok (fun t ht => (hts t ht).2) hst
  obtain ⟨-,rs,hstored,hposted⟩ := recordTransactionsWithBalanceSet_posted h.accounted.unique (hids ▸ hnodup)
    (fun b hb => hnonempty _ (hids ▸ mem_map_of_mem hb)) hfresh hmoved hb
  have hall := postedAs_of_finalised hfinal hstored
  have hmessages : ∀ t ∈ e.queue ++ ts, ∃ i, Message e.database.transactions t i := by
    intro t ht
    rcases mem_append.mp ht with ht | ht
    · exact h.messages t ht
    · exact (hts t ht).1
  have hextends := batch_extends hall hposted.checked (fun t ht => mem_append_right _ ht) h.journal h.rows hmessages
  refine ⟨rs,⟨hposted,hextends.mono fun t ht => mem_append_left _ ht,[],(append_nil _).symm,
    fun _ ht => absurd ht not_mem_nil⟩,fun r hr => ?_⟩
  obtain ⟨t,ht,a,p,hpost⟩ := exists_of_forall₂ hall r hr
  obtain ⟨i,hti⟩ := (hts t ht).1
  have hstatus := status_of_posted h hti hpost
  refine ⟨i,⟨hti.mem,hti.intent,hpost.row ▸ hti.copy.parent,hpost.row ▸ hti.copy.reference,hstatus.imp_right .inl⟩,
    fun hrejected => ?_⟩
  rcases hstatus with hs | hs <;> rw [hrejected] at hs <;> cases hs

variable {siblings : List (String × String)}

theorem siblings_ok {rest : List Transaction} (h : e.Sound)
    (hids : ∀ copyID ∈ siblings.map Prod.snd, FreshID e copyID)
    (hrest : (siblings.mapM fun (id,copyID) => e.database.coalescingSibling id copyID) = .ok rest) :
    ∀ t ∈ rest, (∃ i, Message e.database.transactions t i) ∧ canCoalesceQueuedTransaction t = .ok () := by
  intro t ht
  obtain ⟨⟨id,copyID⟩,hmem,hf⟩ := mapM_ok_mem hrest t ht
  exact coalescingSibling_ok h (hids copyID (mem_map_of_mem hmem)) hf

theorem tryRecordQueuedTransactionBatch_ok {db : Database} {leader : Transaction} (h : db.tryRecordQueuedTransactionBatch leader siblings queuedDebit = .ok db') :
    canCoalesceQueuedTransaction leader = .ok () ∧
      ∃ rest, (siblings.mapM fun (id,copyID) => db.coalescingSibling id copyID) = .ok rest ∧ rest ≠ [] ∧
        db.persistQueuedTransactionBatch (leader :: rest) queuedDebit = .ok db' := by
  obtain ⟨_,hleader,h⟩ := bind_ok h
  obtain ⟨rest,hrest,h⟩ := bind_ok h
  obtain ⟨hne,h⟩ := ok_of_guard h
  exact ⟨hleader,rest,hrest,hne,h⟩

theorem batch_appended {leader : Transaction} (h : e.Sound) (hl : ∃ i, Message e.database.transactions leader i)
    (hids : ∀ copyID ∈ siblings.map Prod.snd, FreshID e copyID)
    (hb : e.database.tryRecordQueuedTransactionBatch leader siblings queuedDebit = .ok db') :
    ∃ rs, Appended e { e with database := db' } rs ∧
      ∀ r ∈ rs, ∃ i, ChildRow e.database.transactions i r ∧ r.status ≠ .rejected := by
  obtain ⟨hleader,rest,hrest,-,hb⟩ := tryRecordQueuedTransactionBatch_ok hb
  obtain ⟨loaded,hloaded,hb⟩ := bind_ok hb
  obtain ⟨st,hst,hb⟩ := bind_ok hb
  obtain ⟨hloadedIDs,hreads⟩ := loadBalancesForQueuedBatch_ok hloaded
  refine prepared_batch_appended h (forall_mem_cons.mpr ⟨⟨hl,hleader⟩,siblings_ok h hids hrest⟩) hloadedIDs
    (fun b hb => ?_) hst hb
  obtain ⟨c,hc,hread⟩ := hreads b hb
  exact hread ▸ fresh_found hc _

end LedgerForge.Engine
