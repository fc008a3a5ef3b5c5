import LedgerForge.Engine.Reservations
import LedgerForge.Journal.Groups

/-! # Groups along runs

Which operations disturb a group: commits of its holds, voids of its intents, refunds of its reversals and
rejections of its reversals. Every other step leaves the group undisturbed.
-/

namespace LedgerForge

open List

section EffectOf

variable {groups : List String} {rows rows' : List Row} {a : Row}

theorem EffectOf.append (h : EffectOf groups rows a) (rows' : List Row) : EffectOf groups (rows ++ rows') a :=
  ⟨h.1,h.2.imp_right fun ⟨i,hi,hrest⟩ => ⟨i,mem_append_left _ hi,hrest⟩⟩

end EffectOf

namespace Engine

open Database

def Operation.refunded : Operation → Option String
  | .refund id _ _ _ _ => some id
  | _ => none

/-- The operation commits no hold of the group, voids none of its intents, reverses none of its reversals and
rejects none, and a reversal that skips the queue is not of a row that is linked to the group. -/
def Operation.Undisturbing (groups : List String) (e : Engine) : Operation → Prop
  | .commit id _ _ _ _ => ∀ h ∈ family groups e.database.transactions, h.transactionID ≠ id
  | .commitQueued id _ _ _ _ => ∀ h ∈ family groups e.database.transactions, h.transactionID ≠ id
  | .void id _ _ _ => ∀ i ∈ family groups e.database.transactions, i.transactionID = id → ¬ i.IsIntent
  | .refund id skipQueue _ _ _ => ∀ o ∈ family groups e.database.transactions, o.transactionID = id →
      EffectOf groups e.database.transactions o ∧ (skipQueue = true → o.controls.queuedParent ∉ groups)
  | .reject message => ∀ t ∈ e.queue[message]?, ∀ i ∈ family groups e.database.transactions,
      i.transactionID = t.parentTransaction → i.parentTransaction ∈ groups
  | .recover id _ exhausted _ => exhausted = true → ∀ i ∈ family groups e.database.transactions,
      i.transactionID = id → i.parentTransaction ∈ groups
  | _ => True

instance decidableUndisturbing (groups : List String) (e : Engine) : (op : Operation) → Decidable (op.Undisturbing groups e)
  | .commit _ _ _ _ _ => inferInstanceAs (Decidable (∀ h ∈ _, _))
  | .commitQueued _ _ _ _ _ => inferInstanceAs (Decidable (∀ h ∈ _, _))
  | .void _ _ _ _ => inferInstanceAs (Decidable (∀ i ∈ _, _ → _))
  | .refund _ _ _ _ _ => inferInstanceAs (Decidable (∀ o ∈ _, _ → _))
  | .reject message => inferInstanceAs (Decidable (∀ t ∈ e.queue[message]?, ∀ i ∈ _, _ → _))
  | .recover _ _ _ _ => inferInstanceAs (Decidable (_ → ∀ i ∈ _, _ → _))
  | .createBalance _ _ | .post _ _ _ _ _ | .postLeg _ _ _ _ _ _ | .work _ _ | .workBatch _ _ _ => .isTrue trivial

/-- A group identifier is not one of a row. -/
def Operation.Rooted (e : Engine) (op : Operation) : Prop :=
  ∀ g, op.group = some g → g ∉ op.newIDs ∧ ∀ x ∈ e.database.transactions, x.transactionID ≠ g

theorem rooted_of_admissible {e : Engine} {op : Operation} (ha : e.admissible op = true) : op.Rooted e := by
  intro g hg
  rw [admissible,Bool.and_eq_true,hg] at ha
  have hallowed := ha.2
  simp only [groupAllowed,Bool.and_eq_true,Bool.not_eq_true',decide_eq_false_iff_not,Option.isNone_iff_eq_none] at hallowed
  refine ⟨hallowed.1.1.2,fun x hx he => ?_⟩
  have hnone := List.find?_eq_none.mp hallowed.1.2 x hx
  simp [he] at hnone

/-- A new row below a row executes or rejects it, settles it or refunds it. -/
theorem writes_target {e : Engine} {op : Operation} {rs : List Row} {r p : Row} (hrs : ∀ r ∈ rs, op.Writes e r)
    (hj : Journal (e.database.transactions ++ rs)) (hroot : op.Rooted e) (hr : r ∈ rs)
    (hp : p ∈ e.database.transactions ++ rs) (hparent : r.parentTransaction = p.transactionID) :
    p ∈ e.database.transactions ∧
      (ChildRow e.database.transactions p r ∨ op.settled = some p.transactionID ∨ op.refunded = some p.transactionID) := by
  have hsame : ∀ {i : Row}, i ∈ e.database.transactions → r.parentTransaction = i.transactionID → i = p := fun hi hri =>
    hj.eq_of_id (mem_append_left _ hi) hp (hri.symm.trans hparent)
  have hchild : ∀ {i : Row}, ChildRow e.database.transactions i r → p ∈ e.database.transactions ∧
      (ChildRow e.database.transactions p r ∨ op.settled = some p.transactionID ∨ op.refunded = some p.transactionID) :=
    fun hc => hsame hc.mem hc.parent ▸ ⟨hc.mem,.inl hc⟩
  have hnever : ∀ {g newID : String}, op.group = some g → newID ∈ op.newIDs → (∀ x ∈ rs, x.transactionID = newID) →
      r.parentTransaction ≠ g := by
    intro g newID hg hnew hkey he
    obtain ⟨hids,hrows⟩ := hroot g hg
    rcases mem_append.mp hp with hp | hp
    · exact hrows p hp (hparent.symm.trans he)
    · exact hids ((hkey p hp).symm.trans (hparent.symm.trans he) ▸ hnew)
  have hw := hrs r hr
  cases op with
  | createBalance => exact hw.elim
  | post request group newID copyID queuedDebit =>
    have hgroup := hw.parent
    cases group with
    | none => exact absurd (hparent.symm.trans hgroup) (hj.id_ne_empty hp)
    | some g => exact absurd hgroup (hnever rfl mem_cons_self fun x hx => (hrs x hx).key)
  | postLeg request leg splitID legID copyID queuedDebit =>
    exact absurd hw.parent (hnever rfl mem_cons_self fun x hx => (hrs x hx).key)
  | work =>
    obtain ⟨t,i,-,-,hc,-⟩ := hw
    exact hchild hc
  | workBatch =>
    obtain ⟨i,hc,-⟩ := hw
    exact hchild hc
  | reject =>
    obtain ⟨t,i,-,-,hc,-⟩ := hw
    exact hchild hc
  | recover =>
    obtain ⟨i,-,hc,-⟩ := hw
    exact hchild hc
  | commit id =>
    obtain ⟨h,hh,hid,-⟩ := hw.1.target
    obtain rfl := hsame hh (hw.1.parent.trans hid.symm)
    exact ⟨hh,.inr (.inl (congrArg some hid.symm))⟩
  | commitQueued id =>
    obtain ⟨h,hh,hid,-⟩ := hw.1.target
    obtain rfl := hsame hh (hw.1.parent.trans hid.symm)
    exact ⟨hh,.inr (.inl (congrArg some hid.symm))⟩
  | void id =>
    obtain ⟨h,hh,hid,-⟩ := hw.1.target
    obtain rfl := hsame hh (hw.1.parent.trans hid.symm)
    exact ⟨hh,.inr (.inl (congrArg some hid.symm))⟩
  | refund id =>
    obtain ⟨o,ho,hid,-,hc⟩ := hw
    obtain rfl := hsame ho hc.parent
    exact ⟨ho,.inr (.inr (congrArg some hid.symm))⟩

/-- A group identifier that no row can take: it has another form, or rows refer to it. -/
def Reserved (e : Engine) (group : String) : Prop :=
  isTransactionID group = false ∨ ∃ x ∈ e.database.transactions, x.parentTransaction = group

theorem ExtendsAll.apart {queue : List Transaction} {rows rs : List Row} (h : ExtendsAll queue rows rs) {group : String}
    (hg : isTransactionID group = false ∨ ∃ x ∈ rows, x.parentTransaction = group) : ∀ r ∈ rs, r.transactionID ≠ group := by
  induction h with
  | nil => exact fun _ hr => absurd hr not_mem_nil
  | @cons rows rs r head tail ih =>
    intro x hx
    rcases mem_cons.mp hx with rfl | hx
    · rintro rfl
      rcases hg with hform | ⟨y,hy,hparent⟩
      · rw [head.id] at hform
        cases hform
      · exact head.unused.parent y hy hparent
    · exact ih (hg.imp_right fun ⟨y,hy,hparent⟩ => ⟨y,mem_append_left _ hy,hparent⟩) x hx

section Step

variable {groups : List String} {e e' : Engine} {op : Operation} {rs : List Row} {r p : Row}

theorem parent_in_family (hu : Undisturbed groups e.database.transactions) (hj : Journal (e.database.transactions ++ rs))
    (hr : r ∈ family groups (e.database.transactions ++ rs)) (hp : p ∈ e.database.transactions)
    (hparent : r.parentTransaction = p.transactionID) : p ∈ family groups e.database.transactions := by
  rcases ((mem_family hj).mp hr).2 with hgroup | ⟨q,hq,hqp⟩
  · exact absurd (hparent ▸ hgroup) (hu.apart p hp)
  · obtain rfl := hj.eq_of_id (mem_append_left _ hp) (mem_of_mem_family hq) (hparent.symm.trans hqp)
    exact mem_family_of_later hj hp hq

/-- A new row of the group that commits something was asked for. -/
theorem uncommitted_appended (hu : Undisturbed groups e.database.transactions) (hj : Journal (e.database.transactions ++ rs))
    (hapart : ∀ x ∈ e.database.transactions ++ rs, x.transactionID ∉ groups) (hrs : ∀ r ∈ rs, op.Writes e r)
    (hroot : op.Rooted e) (hop : op.Undisturbing groups e) (hr : r ∈ rs)
    (hf : r ∈ family groups (e.database.transactions ++ rs)) (hstatus : r.status = .applied ∨ r.status = .queued) :
    r.queueAction ≠ .commit := by
  intro hcommit
  obtain ⟨hmem,hgroup | ⟨p,hp,hparent⟩⟩ := (mem_family hj).mp hf
  · have haction := (hj.requested hmem fun x hx he => hapart x hx (he ▸ hgroup)).2
    rw [hcommit] at haction
    cases haction
  have hprow := mem_of_mem_family hp
  obtain ⟨hpold,hkind⟩ := writes_target hrs hj hroot hr hprow hparent
  have hpf := parent_in_family hu hj hf hpold hparent
  cases hj.child hprow hmem hparent with
  | ofIntent hintent child =>
    cases child with
    | execution _ _ action => rw [hcommit] at action; cases action
    | rejection status => rcases hstatus with hs | hs <;> rw [status] at hs <;> cases hs
    | completion queued => exact hu.uncommitted p hpf (.inr queued.1) queued.2
    | void _ status => rcases hstatus with hs | hs <;> rw [status] at hs <;> cases hs
  | ofApplied _ child =>
    have haction := child.action
    rw [hcommit] at haction
    cases haction
  | ofHold hold _ =>
    -- only a commit of the hold writes such a row
    rcases hkind with hchild | hsettled | hrefunded
    · rcases hchild.intent with hs | hs <;> rw [hold] at hs <;> cases hs
    · have hw := hrs r hr
      cases op <;> cases hsettled
      · exact hop p hpf rfl
      · exact hop p hpf rfl
      · rcases hstatus with hs | hs <;> rw [hw.2] at hs <;> cases hs
    · have hw := hrs r hr
      cases op <;> cases hrefunded
      obtain ⟨o,ho,hid,happlied,-⟩ := hw
      obtain rfl := hj.eq_of_id (mem_append_left _ ho) hprow hid
      rw [hold] at happlied
      cases happlied

/-- A rejected row of the group rejects an item. -/
theorem carried_appended (hs : e.Sound) (hu : Undisturbed groups e.database.transactions)
    (hj : Journal (e.database.transactions ++ rs)) (hrs : ∀ r ∈ rs, op.Writes e r) (hop : op.Undisturbing groups e) (hr : r ∈ rs)
    (hf : r ∈ family groups (e.database.transactions ++ rs)) (hstatus : r.status = .rejected)
    (hp : p ∈ e.database.transactions ++ rs) (hparent : r.parentTransaction = p.transactionID) :
    p.parentTransaction ∈ groups := by
  obtain ⟨i,hi,hri,hcause⟩ := (hrs r hr).rejected hstatus
  obtain rfl := hj.eq_of_id (mem_append_left _ hi) hp (hri.symm.trans hparent)
  have hif := parent_in_family hu hj hf hi hparent
  have hintent : i.IsIntent := by
    cases hj.child hp (mem_append_right _ hr) hparent with
    | ofIntent hintent => exact hintent
    | ofApplied _ child => rcases child.status with (hc | hc) | hc <;> rw [hstatus] at hc <;> cases hc
    | ofHold _ child => rcases child.status with hc | ⟨hc | hc,-⟩ <;> rw [hstatus] at hc <;> cases hc
  rcases hcause with hminor | ⟨message,rfl,t,ht,hti⟩ | ⟨copyID,queuedDebit,rfl⟩
  · -- a reversal has the amount of what it reverses
    rcases hu.intent hs.journal hif hintent with hitem | ⟨o,ho,-,happlied,-,hreverses⟩
    · exact hitem
    have hpos : 0 < o.minor := by
      apply (hs.rows o ho).posted (not_intent_of_posted (.inl happlied))
      rw [happlied]
      decide
    have hlegs := hreverses.legs
    simp only [reversesLegs,Bool.and_eq_true,decide_eq_true_eq] at hlegs
    rw [Row.minor,hlegs.2] at hminor
    exact absurd hpos (not_lt.mpr hminor)
  · exact hop t ht i hif hti.symm
  · exact hop rfl i hif rfl

/-- A new row with a link to the group is an item or executes one. -/
theorem linked_appended (hs : e.Sound) (hu : Undisturbed groups e.database.transactions)
    (hj : Journal (e.database.transactions ++ rs)) (hapart : ∀ x ∈ e.database.transactions ++ rs, x.transactionID ∉ groups)
    (hrs : ∀ r ∈ rs, op.Writes e r) (hop : op.Undisturbing groups e) (hr : r ∈ rs) (hlink : r.controls.queuedParent ∈ groups) :
    (r.IsIntent → r.parentTransaction ∈ groups) ∧
      (r.status = .applied ∨ r.status = .inflight → EffectOf groups (e.database.transactions ++ rs) r) := by
  have hmem : r ∈ e.database.transactions ++ rs := mem_append_right _ hr
  -- a row that commits or voids inherits the link of what it settles
  have hsettled : ∀ {id newID reference : String}, SettlingRow e.database.transactions id newID reference r →
      ∃ h ∈ family groups e.database.transactions, h.transactionID = id := by
    intro id newID reference hsettling
    obtain ⟨h,hh,hid,hkind⟩ := hsettling.target
    obtain ⟨hitem,heffect⟩ := hu.linked h hh (hsettling.link h hh hid ▸ hlink)
    refine ⟨h,?_,hid⟩
    rcases hkind with hold | ⟨hqueued,-⟩
    · exact (mem_filter.mp ((mem_effects hs.journal).mpr ⟨hh,heffect (.inr hold)⟩)).1
    · exact mem_family_of_group hs.journal hh (hitem (.inl hqueued))
  have hchild : ∀ {i : Row}, ChildRow e.database.transactions i r → (r.IsIntent → r.parentTransaction ∈ groups) ∧
      (r.status = .applied ∨ r.status = .inflight → EffectOf groups (e.database.transactions ++ rs) r) := by
    intro i hc
    have himem := mem_append_left rs hc.mem
    refine ⟨fun hintent => ?_,fun hposted => ⟨hposted,.inr ⟨i,himem,hc.intent,?_,hc.parent⟩⟩⟩
    · rcases hc.status with hs | hs | hs <;> rcases hintent with hi | hi <;> rw [hs] at hi <;> cases hi
    · cases hj.intentChild himem hc.intent hmem hc.parent with
      | execution _ _ _ _ _ queuedParent => exact (hu.linked i hc.mem (queuedParent ▸ hlink)).1 hc.intent
      | rejection status => rcases hposted with hs | hs <;> rw [status] at hs <;> cases hs
      | completion queued _ _ _ _ queuedParent => exact (hu.linked i hc.mem (queuedParent ▸ hlink)).1 hc.intent
      | void _ status => rcases hposted with hs | hs <;> rw [status] at hs <;> cases hs
  have hw := hrs r hr
  cases op with
  | createBalance => exact hw.elim
  | post request group newID copyID queuedDebit =>
    have hqueued := hw.queuedParent
    have hstatus := hw.status
    split at hqueued
    · exact absurd (hqueued ▸ hlink) hu.named
    rename_i hskip
    rw [if_neg hskip] at hstatus
    refine ⟨fun _ => ?_,fun hposted => absurd hstatus (not_intent_of_posted hposted)⟩
    rw [linkOf] at hqueued
    split at hqueued
    · exact hw.parent.trans hqueued.symm ▸ hlink
    · exact absurd (hw.key.trans hqueued.symm ▸ hlink) (hapart r hmem)
  | postLeg request leg splitID legID copyID queuedDebit =>
    have hqueued := hw.queuedParent
    rw [ite_self] at hqueued
    exact absurd (hqueued ▸ hlink) hu.named
  | work =>
    obtain ⟨t,i,-,-,hc,-⟩ := hw
    exact hchild hc
  | workBatch =>
    obtain ⟨i,hc,-⟩ := hw
    exact hchild hc
  | reject =>
    obtain ⟨t,i,-,-,hc,-⟩ := hw
    exact hchild hc
  | recover =>
    obtain ⟨i,-,hc,-⟩ := hw
    exact hchild hc
  | commit id =>
    obtain ⟨h,hf,hid⟩ := hsettled hw.1
    exact absurd hid (hop h hf)
  | commitQueued id =>
    obtain ⟨h,hf,hid⟩ := hsettled hw.1
    exact absurd hid (hop h hf)
  | void id =>
    constructor
    all_goals rintro (hs | hs) <;> rw [hw.2] at hs <;> cases hs
  | refund id skipQueue newID =>
    obtain ⟨o,ho,hid,happlied,hc⟩ := hw
    have hqueued := hc.queuedParent
    split at hqueued
    · rename_i hskip
      have heffect := (hu.linked o ho (hqueued ▸ hlink)).2 (.inl happlied)
      have hof := (mem_filter.mp ((mem_effects hs.journal).mpr ⟨ho,heffect⟩)).1
      exact absurd (hqueued ▸ hlink) ((hop o hof hid).2 hskip)
    · exact absurd (hc.key.trans hqueued.symm ▸ hlink) (hapart r hmem)

theorem Step.undisturbed (hs : e.Sound) (hu : Undisturbed groups e.database.transactions)
    (hg : ∀ g ∈ groups, e.Reserved g) (hroot : op.Rooted e) (hop : op.Undisturbing groups e) (h : Step e op e') :
    Undisturbed groups e'.database.transactions := by
  have hj := (h.sound hs).journal
  cases h with
  | created id currency created =>
    subst created
    exact (createBalance_frame e.database id currency).1.symm ▸ hu
  | appended rs appended writes =>
    rw [appended.posted.transactions] at hj ⊢
    have hapart : ∀ x ∈ e.database.transactions ++ rs, x.transactionID ∉ groups := by
      intro x hx hxg
      rcases mem_append.mp hx with hx | hx
      · exact hu.apart x hx hxg
      · exact appended.rows.apart (hg _ hxg) x hx rfl
    have hsplit : ∀ r ∈ family groups (e.database.transactions ++ rs), r ∈ family groups e.database.transactions ∨ r ∈ rs := by
      intro r hr
      rcases mem_append.mp (mem_of_mem_family hr) with hold | hnew
      · exact .inl (mem_family_of_later hj hold hr)
      · exact .inr hnew
    refine ⟨hu.named,hapart,fun r hr hstatus => ?_,fun v hv hvoid => ?_,fun r hr o ho hparent happlied => ?_,
      fun r hr hstatus i hi hparent => ?_,fun r hr hlink => ?_⟩
    · rcases hsplit r hr with hold | hnew
      · exact hu.uncommitted r hold hstatus
      · exact uncommitted_appended hu hj hapart writes hroot hop hnew hr hstatus
    · rcases hsplit v hv with hold | hnew
      · obtain ⟨h,hh,hrest⟩ := hu.releasing v hold hvoid
        exact ⟨h,mem_append_left _ hh,hrest⟩
      obtain ⟨id,reference,newID,queuedDebit,rfl,hsettling⟩ := (writes v hnew).void hvoid
      obtain ⟨h,hh,hid,hkind⟩ := hsettling.target
      have hparent := hsettling.parent.trans hid.symm
      refine ⟨h,mem_append_left _ hh,hkind.resolve_right fun hq => ?_,hparent⟩
      exact hop h (parent_in_family hu hj hv hh hparent) hid (.inl hq.1)
    · rcases hsplit r hr with hold | hnew
      · exact (hu.original r hold o (parent_stored hj (mem_of_mem_family hold) ho hparent) hparent happlied).append rs
      obtain ⟨hoold,hkind⟩ := writes_target writes hj hroot hnew ho hparent
      have hof := parent_in_family hu hj hr hoold hparent
      rcases hkind with hchild | hsettled | hrefunded
      · exact absurd hchild.intent (not_intent_of_posted (.inl happlied))
      · obtain ⟨newID,reference,hsettling⟩ := (writes r hnew).settled hsettled
        obtain ⟨h,hh,hid,hkind⟩ := hsettling.target
        obtain rfl := hj.eq_of_id (mem_append_left _ hh) ho hid
        rcases hkind with hs | ⟨hs,-⟩ <;> rw [happlied] at hs <;> cases hs
      · cases op <;> cases hrefunded
        exact (hop o hof rfl).1.append rs
    · rcases hsplit r hr with hold | hnew
      · exact hu.carried r hold hstatus i (parent_stored hj (mem_of_mem_family hold) hi hparent) hparent
      · exact carried_appended hs hu hj writes hop hnew hr hstatus hi hparent
    · rcases mem_append.mp hr with hold | hnew
      · exact (hu.linked r hold hlink).imp_right fun heffect hposted => (heffect hposted).append rs
      · exact linked_appended hs hu hj hapart writes hop hnew hlink

theorem Operation.Writes.no_item (hw : op.Writes e r) (hu : Undisturbed groups e.database.transactions)
    (hgroup : ∀ g, op.group = some g → g ∉ groups) : r.parentTransaction ∉ groups := by
  have hchild : ∀ {i : Row}, i ∈ e.database.transactions → r.parentTransaction = i.transactionID →
      r.parentTransaction ∉ groups := fun hi hp => hp ▸ hu.apart _ hi
  have hsettled : ∀ {id newID reference : String}, SettlingRow e.database.transactions id newID reference r →
      r.parentTransaction ∉ groups := by
    intro id newID reference hsettling
    obtain ⟨h,hh,hid,-⟩ := hsettling.target
    exact hchild hh (hsettling.parent.trans hid.symm)
  cases op with
  | createBalance => exact hw.elim
  | post request group newID copyID queuedDebit =>
    rw [hw.parent]
    cases group with
    | none => exact hu.named
    | some g => exact hgroup g rfl
  | postLeg request leg splitID legID copyID queuedDebit => exact hw.parent ▸ hgroup splitID rfl
  | work =>
    obtain ⟨t,i,-,-,hc,-⟩ := hw
    exact hchild hc.mem hc.parent
  | workBatch =>
    obtain ⟨i,hc,-⟩ := hw
    exact hchild hc.mem hc.parent
  | reject =>
    obtain ⟨t,i,-,-,hc,-⟩ := hw
    exact hchild hc.mem hc.parent
  | recover =>
    obtain ⟨i,-,hc,-⟩ := hw
    exact hchild hc.mem hc.parent
  | commit => exact hsettled hw.1
  | commitQueued => exact hsettled hw.1
  | void => exact hsettled hw.1
  | refund =>
    obtain ⟨o,ho,-,-,hc⟩ := hw
    exact hchild ho hc.parent

def ItemsEnded (groups : List String) (rows : List Row) : Prop :=
  ∀ i ∈ rows, i.IsIntent → i.parentTransaction ∈ groups → ∃ c ∈ rows, c.parentTransaction = i.transactionID ∧ c.IsTerminal

/-- When its items have ended, a group without new requests is executed no further. -/
theorem Step.effects_stored (hs : e.Sound) (hu : Undisturbed groups e.database.transactions)
    (hended : ItemsEnded groups e.database.transactions) (hgroup : ∀ g, op.group = some g → g ∉ groups) (h : Step e op e') :
    ItemsEnded groups e'.database.transactions ∧ ∀ a ∈ e'.database.transactions, EffectOf groups e'.database.transactions a →
      a ∈ e.database.transactions ∧ EffectOf groups e.database.transactions a := by
  have hj := (h.sound hs).journal
  cases h with
  | created id currency created =>
    subst created
    rw [(createBalance_frame e.database id currency).1]
    exact ⟨hended,fun a ha heffect => ⟨ha,heffect⟩⟩
  | appended rs appended writes =>
    rw [appended.posted.transactions] at hj ⊢
    have hitems : ∀ i ∈ e.database.transactions ++ rs, i.parentTransaction ∈ groups → i ∈ e.database.transactions := by
      intro i hi hitem
      rcases mem_append.mp hi with hi | hi
      · exact hi
      · exact absurd hitem ((writes i hi).no_item hu hgroup)
    refine ⟨fun i hi hintent hitem => ?_,fun a ha heffect => ?_⟩
    · obtain ⟨c,hc,hrest⟩ := hended i (hitems i hi hitem) hintent hitem
      exact ⟨c,mem_append_left _ hc,hrest⟩
    · have hold : a ∈ e.database.transactions := by
        obtain ⟨hposted,hitem | ⟨i,hi,hintent,hitem,hparent⟩⟩ := heffect
        · exact hitems a ha hitem
        obtain ⟨c,hc,hci,hterminal⟩ := hended i (hitems i hi hitem) hintent hitem
        have haterminal : a.IsTerminal := hposted.imp_right .inl
        exact hj.terminal_unique hi hintent ha hparent haterminal (mem_append_left _ hc) hci hterminal ▸ hc
      exact ⟨hold,heffect.1,heffect.2.imp_right fun ⟨i,hi,hintent,hitem,hparent⟩ =>
        ⟨i,parent_stored hj hold hi hparent,hintent,hitem,hparent⟩⟩

theorem undisturbed_step (hs : e.Sound) (hu : Undisturbed groups e.database.transactions) (hg : ∀ g ∈ groups, e.Reserved g)
    (hop : op.Undisturbing groups e) : Undisturbed groups (e.step op).database.transactions := by
  by_cases ha : e.admissible op = true
  · exact (step_ok hs op).undisturbed hs hu hg (rooted_of_admissible ha) hop
  · rw [step,if_neg ha]
    exact hu

end Step

end Engine
end LedgerForge
