import LedgerForge.Journal.Settled
import LedgerForge.Journal.Children
import LedgerForge.Library.Lineage

/-! # The rows of a group and what they add up to

A group is known by identifiers that are no rows: a batch, or a split. Its rows are everything below these
identifiers.
-/

namespace LedgerForge

open Sums Lineage List Row Counters Movement

def family (groups : List String) (rows : List Row) : List Row :=
  descendants transactionID parentTransaction groups rows

def Counters.net (c : Counters) : ℤ × ℤ × ℤ := (c.credit-c.debit,c.inflightCredit,c.inflightDebit)

theorem Counters.net_add (a b : Counters) : (a+b).net = a.net+b.net := by
  simp only [net,Prod.mk_add_mk,add_credit,add_debit,add_inflightCredit,
    add_inflightDebit]
  congr 1
  ring

def netEffect (groups : List String) (rows : List Row) (id : String) : ℤ × ℤ × ℤ := (replay (family groups rows) id).net

theorem net_replay (rows : List Row) (id : String) : (replay rows id).net = (rows.map fun r => (r.delta id).net).sum := by
  rw [replay_eq_sum]
  induction rows with
  | nil => rfl
  | cons r rows ih => rw [map_cons,sum_cons,net_add,ih,map_cons,sum_cons]

theorem Journal.parentsFirst {rows : List Row} (h : Journal rows) :
    ParentsFirst transactionID parentTransaction rows := by
  induction h with
  | nil =>
    intro pre x post he
    simp at he
  | @snoc rows r rest unused origin ih =>
    intro pre x post he y hy
    rcases eq_nil_or_concat post with rfl | ⟨post',z,rfl⟩
    · obtain ⟨rfl,hr⟩ := append_inj' he rfl
      obtain rfl := (List.cons.inj hr).1
      rcases mem_append.mp hy with hy | hy
      · exact unused.parent y hy
      · exact mem_singleton.mp hy ▸ unused.own
    · refine ih pre x post' ?_ y hy
      have hcut : rows ++ [r] = (pre ++ x :: post') ++ [z] := by rw [he]; simp
      exact (append_inj' hcut rfl).1

section Family

variable {groups : List String} {rows : List Row} {r : Row}

theorem mem_family (h : Journal rows) : r ∈ family groups rows ↔
    r ∈ rows ∧ (r.parentTransaction ∈ groups ∨ ∃ p ∈ family groups rows, r.parentTransaction = p.transactionID) :=
  mem_descendants h.parentsFirst

theorem mem_of_mem_family (h : r ∈ family groups rows) : r ∈ rows := descendants_sublist.subset h

theorem family_nodup (h : Journal rows) : (family groups rows).Nodup :=
  descendants_sublist.nodup (List.Nodup.of_map _ h.ids_nodup)

theorem mem_family_of_later {rows' : List Row} (h : Journal (rows ++ rows')) (hr : r ∈ rows)
    (hf : r ∈ family groups (rows ++ rows')) : r ∈ family groups rows := by
  obtain ⟨t,ht,he⟩ := @descendants_append _ _ _ transactionID parentTransaction groups rows rows'
  rw [family,he] at hf
  rcases mem_append.mp hf with hf | hf
  · exact hf
  · exact absurd (ht.subset hf) fun hr' => (nodup_append.mp (List.Nodup.of_map _ h.ids_nodup)).2.2 r hr r hr' rfl

theorem parent_stored {rows' : List Row} (h : Journal (rows ++ rows')) (hr : r ∈ rows) {p : Row} (hp : p ∈ rows ++ rows')
    (hparent : r.parentTransaction = p.transactionID) : p ∈ rows := by
  rcases mem_append.mp hp with hp | hp
  · exact hp
  obtain ⟨pre,post,rfl⟩ := append_of_mem hp
  refine absurd hparent (h.parentsFirst (rows ++ pre) p post (by simp) r ?_)
  exact mem_append_left _ (mem_append_left _ hr)

theorem mem_family_of_parent (h : Journal rows) (hr : r ∈ rows) {p : Row} (hp : p ∈ family groups rows)
    (hparent : r.parentTransaction = p.transactionID) : r ∈ family groups rows :=
  (mem_family h).mpr ⟨hr,.inr ⟨p,hp,hparent⟩⟩

theorem mem_family_of_group (h : Journal rows) (hr : r ∈ rows) (hparent : r.parentTransaction ∈ groups) :
    r ∈ family groups rows := (mem_family h).mpr ⟨hr,.inl hparent⟩

end Family

def EffectOf (groups : List String) (rows : List Row) (a : Row) : Prop :=
  (a.status = .applied ∨ a.status = .inflight) ∧ (a.parentTransaction ∈ groups ∨
    ∃ i ∈ rows, i.IsIntent ∧ i.parentTransaction ∈ groups ∧ a.parentTransaction = i.transactionID)
deriving Decidable

/-- Nobody commits a hold of the group, voids one of its intents, reverses one of its reversals or rejects one,
and what is found through the link to the group is an item or executes one. -/
structure Undisturbed (groups : List String) (rows : List Row) : Prop where
  named : "" ∉ groups
  apart : ∀ r ∈ rows, r.transactionID ∉ groups
  uncommitted : ∀ r ∈ family groups rows, r.status = .applied ∨ r.status = .queued → r.queueAction ≠ .commit
  releasing : ∀ v ∈ family groups rows, v.status = .void → ∃ h ∈ rows, h.status = .inflight ∧ v.parentTransaction = h.transactionID
  original : ∀ r ∈ family groups rows, ∀ o ∈ rows, r.parentTransaction = o.transactionID → o.status = .applied →
    EffectOf groups rows o
  carried : ∀ r ∈ family groups rows, r.status = .rejected → ∀ i ∈ rows, r.parentTransaction = i.transactionID →
    i.parentTransaction ∈ groups
  linked : ∀ r ∈ rows, r.controls.queuedParent ∈ groups → (r.IsIntent → r.parentTransaction ∈ groups) ∧
    (r.status = .applied ∨ r.status = .inflight → EffectOf groups rows r)

/-- What a row of an undisturbed group is. -/
inductive GroupMember (groups : List String) (rows : List Row) (r : Row) : Prop
  | idle (movement : r.movement = none)
  | effect (effect : EffectOf groups rows r)
  | void (h : Row) (mem : h ∈ rows) (effect : EffectOf groups rows h) (hold : h.status = .inflight) (status : r.status = .void)
      (parent : r.parentTransaction = h.transactionID)
  | reversal (o : Row) (mem : o ∈ rows) (effect : EffectOf groups rows o) (applied : o.status = .applied)
      (status : r.status = .applied) (link : r.parentTransaction = o.transactionID ∨
        ∃ i ∈ rows, i.IsIntent ∧ i.parentTransaction = o.transactionID ∧ r.parentTransaction = i.transactionID)
      (legs : reversesLegs r o = true)

namespace Undisturbed

variable {groups : List String} {rows : List Row} {r p : Row}

theorem intent (hu : Undisturbed groups rows) (hj : Journal rows) (hr : r ∈ family groups rows) (hintent : r.IsIntent) :
    r.parentTransaction ∈ groups ∨ ∃ o ∈ rows, EffectOf groups rows o ∧ o.status = .applied ∧
      r.parentTransaction = o.transactionID ∧ Reverses r o := by
  obtain ⟨hmem,hgroup | ⟨p,hp,hparent⟩⟩ := (mem_family hj).mp hr
  · exact .inl hgroup
  right
  have hprow := mem_of_mem_family hp
  cases hj.child hprow hmem hparent with
  | ofIntent _ child =>
    cases child with
    | execution _ status => split at status <;> rcases hintent with hs | hs <;> rw [hs] at status <;> cases status
    | rejection status => rcases hintent with hs | hs <;> rw [hs] at status <;> cases status
    | completion _ status => rcases hintent with hs | hs <;> rw [hs] at status <;> cases status
    | void _ status => rcases hintent with hs | hs <;> rw [hs] at status <;> cases status
  | ofApplied applied child => exact ⟨p,hprow,hu.original r hr p hprow hparent applied,applied,hparent,child⟩
  | ofHold _ child =>
    rcases child.status with hs | ⟨hs,hcommit⟩
    · rcases hintent with hi | hi <;> rw [hs] at hi <;> cases hi
    · exact absurd hcommit (hu.uncommitted r hr hs)

theorem hold (hu : Undisturbed groups rows) (hj : Journal rows) (hr : r ∈ family groups rows) (hold : r.status = .inflight) :
    EffectOf groups rows r := by
  obtain ⟨hmem,hgroup | ⟨p,hp,hparent⟩⟩ := (mem_family hj).mp hr
  · exact ⟨.inr hold,.inl hgroup⟩
  have hprow := mem_of_mem_family hp
  have hintent := hj.intent_of_hold hprow hmem hold hparent
  rcases hu.intent hj hp hintent with hitem | ⟨o,-,-,-,-,hreverses⟩
  · exact ⟨.inr hold,.inr ⟨p,hprow,hintent,hitem,hparent⟩⟩
  -- a reversal is never executed as a hold
  cases hj.intentChild hprow hintent hmem hparent with
  | execution _ status =>
    rw [hreverses.inflight,hold] at status
    cases status
  | rejection status => rw [hold] at status; cases status
  | completion _ status => rw [hold] at status; cases status
  | void _ status => rw [hold] at status; cases status

theorem member (hu : Undisturbed groups rows) (hj : Journal rows) (hr : r ∈ family groups rows) :
    GroupMember groups rows r := by
  obtain ⟨hmem,hgroup | ⟨p,hp,hparent⟩⟩ := (mem_family hj).mp hr
  · obtain ⟨hstatus,-⟩ := hj.requested hmem fun x hx he => hu.apart x hx (he ▸ hgroup)
    rcases hstatus with hintent | hposted
    · exact .idle (movement_of_intent hintent)
    · exact .effect ⟨hposted,.inl hgroup⟩
  have hprow := mem_of_mem_family hp
  cases hj.child hprow hmem hparent with
  | ofIntent hintent child =>
    cases child with
    | execution plain status action repeats =>
      rcases hu.intent hj hp hintent with hitem | ⟨o,ho,heffect,happlied,hlink,hreverses⟩
      · refine .effect ⟨?_,.inr ⟨p,hprow,hintent,hitem,hparent⟩⟩
        split at status
        · exact .inr status
        · exact .inl status
      rw [hreverses.inflight] at status
      refine .reversal o ho heffect happlied status (.inr ⟨p,hprow,hintent,hlink,hparent⟩) ?_
      have hlegs := hreverses.legs
      simp only [reversesLegs,Bool.and_eq_true,decide_eq_true_eq] at hlegs ⊢
      rw [repeats.source,repeats.destination,repeats.preciseAmount]
      exact hlegs
    | rejection status => exact .idle (movement_of_rejected status)
    | completion _ status action => exact absurd action (hu.uncommitted r hr (.inl status))
    | void queued status =>
      obtain ⟨h,hh,hold,hhold⟩ := hu.releasing r hr status
      obtain rfl := hj.eq_of_id hprow hh (hparent.symm.trans hhold)
      rw [queued] at hold
      cases hold
  | ofApplied happlied child =>
    rcases child.status with hintent | hstatus
    · exact .idle (movement_of_intent hintent)
    · exact .reversal p hprow (hu.original r hr p hprow hparent happlied) happlied hstatus (.inl hparent) child.legs
  | ofHold hold child =>
    rcases child.status with hstatus | ⟨hstatus,hcommit⟩
    · exact .void p hprow (hu.hold hj hp hold) hold hstatus hparent
    · exact absurd hcommit (hu.uncommitted r hr hstatus)

end Undisturbed

def ReversesVia (rows : List Row) (r a : Row) : Prop :=
  r.status = .applied ∧ (r.parentTransaction = a.transactionID ∨
    ∃ i ∈ rows, i.IsIntent ∧ i.parentTransaction = a.transactionID ∧ r.parentTransaction = i.transactionID)
deriving Decidable

def Undoes (rows : List Row) (r a : Row) : Prop :=
  r = a ∨ r.status = .void ∧ r.parentTransaction = a.transactionID ∨ ReversesVia rows r a
deriving Decidable

def effects (groups : List String) (rows : List Row) : List Row := (family groups rows).filter (EffectOf groups rows)

section Effects

variable {groups : List String} {rows : List Row} {r a : Row}

theorem mem_effects (hj : Journal rows) : a ∈ effects groups rows ↔ a ∈ rows ∧ EffectOf groups rows a := by
  rw [effects,mem_filter,decide_eq_true_eq]
  refine and_congr_left fun heffect => ⟨mem_of_mem_family,fun ha => ?_⟩
  obtain ⟨-,hgroup | ⟨i,hi,-,hitem,hparent⟩⟩ := heffect
  · exact mem_family_of_group hj ha hgroup
  · exact mem_family_of_parent hj ha (mem_family_of_group hj hi hitem) hparent

theorem not_intent_of_posted (ha : a.status = .applied ∨ a.status = .inflight) : ¬ a.IsIntent := by
  rintro (hs | hs) <;> rcases ha with h | h <;> rw [hs] at h <;> cases h

theorem EffectOf.not_below (heffect : EffectOf groups rows r) (hu : Undisturbed groups rows) (hj : Journal rows)
    (ha : a ∈ rows) (hposted : a.status = .applied ∨ a.status = .inflight) :
    r.parentTransaction ≠ a.transactionID ∧
      ∀ i ∈ rows, i.parentTransaction = a.transactionID → r.parentTransaction ≠ i.transactionID := by
  obtain ⟨-,hgroup | ⟨i,hi,hintent,hitem,hparent⟩⟩ := heffect
  · exact ⟨fun he => hu.apart a ha (he ▸ hgroup),fun i hi _ he => hu.apart i hi (he ▸ hgroup)⟩
  refine ⟨fun he => ?_,fun j hj' hja he => ?_⟩
  · obtain rfl := hj.eq_of_id ha hi (he.symm.trans hparent)
    exact not_intent_of_posted hposted hintent
  · obtain rfl := hj.eq_of_id hj' hi (he.symm.trans hparent)
    exact hu.apart a ha (hja ▸ hitem)

/-- Every row of the group that moves anything belongs to one execution. -/
theorem Undisturbed.undoes_unique (hu : Undisturbed groups rows) (hj : Journal rows) (hr : r ∈ family groups rows) (id : String) :
    (r.delta id).net = 0 ∨ ∃ a ∈ effects groups rows, ∀ z ∈ effects groups rows, Undoes rows r z ↔ z = a := by
  have hmem := mem_of_mem_family hr
  cases hu.member hj hr with
  | idle movement =>
    left
    rw [delta,movement]
    rfl
  | effect heffect =>
    refine .inr ⟨r,(mem_effects hj).mpr ⟨hmem,heffect⟩,fun z hz => ⟨?_,fun he => .inl he.symm⟩⟩
    obtain ⟨hz,hzeffect⟩ := (mem_effects hj).mp hz
    obtain ⟨hdirect,hvia⟩ := heffect.not_below hu hj hz hzeffect.1
    rintro (he | ⟨-,hparent⟩ | ⟨-,hparent | ⟨i,hi,-,hiz,hparent⟩⟩)
    · exact he.symm
    · exact absurd hparent hdirect
    · exact absurd hparent hdirect
    · exact absurd hparent (hvia i hi hiz)
  | void h hh heffect hold status parent =>
    refine .inr ⟨h,(mem_effects hj).mpr ⟨hh,heffect⟩,fun z hz => ⟨?_,fun he => .inr (.inl ⟨status,he ▸ parent⟩)⟩⟩
    obtain ⟨hz,hzeffect⟩ := (mem_effects hj).mp hz
    rintro (rfl | ⟨-,hparent⟩ | ⟨happlied,-⟩)
    · rcases hzeffect.1 with hs | hs <;> rw [status] at hs <;> cases hs
    · exact hj.eq_of_id hz hh (hparent.symm.trans parent)
    · rw [status] at happlied
      cases happlied
  | reversal o ho heffect happlied status link =>
    refine .inr ⟨o,(mem_effects hj).mpr ⟨ho,heffect⟩,fun z hz => ⟨?_,fun he => .inr (.inr ⟨status,he ▸ link⟩)⟩⟩
    obtain ⟨hz,hzeffect⟩ := (mem_effects hj).mp hz
    rintro (rfl | ⟨hvoid,-⟩ | ⟨-,hzlink⟩)
    · obtain ⟨hdirect,hvia⟩ := hzeffect.not_below hu hj ho heffect.1
      rcases link with hparent | ⟨i,hi,-,hio,hparent⟩
      · exact absurd hparent hdirect
      · exact absurd hparent (hvia i hi hio)
    · rw [status] at hvoid
      cases hvoid
    · rcases link with hparent | ⟨i,hi,hintent,hio,hparent⟩ <;> rcases hzlink with hzparent | ⟨j,hj',hjintent,hjz,hzparent⟩
      · exact hj.eq_of_id hz ho (hzparent.symm.trans hparent)
      · obtain rfl := hj.eq_of_id hj' ho (hzparent.symm.trans hparent)
        exact absurd hjintent (not_intent_of_posted (.inl happlied))
      · obtain rfl := hj.eq_of_id hz hi (hzparent.symm.trans hparent)
        exact absurd hintent (not_intent_of_posted hzeffect.1)
      · obtain rfl := hj.eq_of_id hi hj' (hparent.symm.trans hzparent)
        exact hj.eq_of_id hz ho (hjz.symm.trans hio)

theorem Undisturbed.void_of_hold (hu : Undisturbed groups rows) (hj : Journal rows) (ha : a ∈ family groups rows)
    (hold : a.status = .inflight) (hr : r ∈ rows) (hparent : r.parentTransaction = a.transactionID) :
    r.status = .void ∧ r.source = a.source ∧ r.destination = a.destination ∧ 0 < r.minor := by
  have hchild := hj.holdChild (mem_of_mem_family ha) hold hr hparent
  obtain ⟨hsource,hdestination,-⟩ := sameTerms_iff.mp hchild.terms
  rcases hchild.status with hs | ⟨hs,hcommit⟩
  · exact ⟨hs,hsource,hdestination,hchild.positive⟩
  · exact absurd hcommit (hu.uncommitted r (mem_family_of_parent hj hr ha hparent) hs)

theorem consumed_of_voids {id : String} (h : ∀ r ∈ kids rows id, r.status = .void) :
    consumed rows id = ((kids rows id).map minor).sum := by
  rw [consumed_eq]
  refine congrArg List.sum (map_congr_left fun r hr => if_pos ?_)
  simp [counts,h r hr]

/-- The voids of a hold of the group add up to the hold. -/
theorem Undisturbed.voids_total (hu : Undisturbed groups rows) (hj : Journal rows) (hb : Bounded rows)
    (ha : a ∈ family groups rows) (hold : a.status = .inflight) (hamount : ∃ x, a.preciseAmount = some x) {v : Row}
    (hv : v ∈ rows) (hparent : v.parentTransaction = a.transactionID) :
    ((kids rows a.transactionID).map minor).sum = a.minor := by
  have harow := mem_of_mem_family ha
  have hvoids : ∀ r ∈ kids rows a.transactionID, r.status = .void ∧ 0 < r.minor := by
    intro r hr
    obtain ⟨hmem,hp⟩ := mem_kids.mp hr
    obtain ⟨hs,-,-,hpos⟩ := hu.void_of_hold hj ha hold hmem hp
    exact ⟨hs,hpos⟩
  apply le_antisymm
  · obtain ⟨x,hx⟩ := hamount
    have hbound := hb.bound harow hold hx
    rw [consumed_of_voids fun r hr => (hvoids r hr).1] at hbound
    exact minor_of_some hx ▸ hbound
  · -- when the void was stored it took everything that was left
    obtain ⟨pre,post,rfl,hpre,hjournal,-,horigin⟩ := hj.parent_before harow hv hparent
    have hsub : ∀ r ∈ kids pre a.transactionID, r ∈ kids (pre ++ v :: post) a.transactionID := fun r hr =>
      mem_kids.mpr ⟨mem_append_left _ (mem_kids.mp hr).1,(mem_kids.mp hr).2⟩
    have hkid : v ∈ kids (pre ++ v :: post) a.transactionID := mem_kids.mpr ⟨hv,hparent⟩
    rcases horigin.void (hvoids v hkid).1 with ⟨p,hp,hchild,-,-,hwhole⟩ | ⟨p,hp,hchild,hqueued⟩
    · obtain rfl := hjournal.eq_of_id hpre hp (hparent.symm.trans hchild.parent)
      rw [consumed_of_voids fun r hr => (hvoids r (hsub r hr)).1] at hwhole
      have hrest : 0 ≤ ((kids post a.transactionID).map minor).sum := by
        apply sum_nonneg
        intro x hx
        obtain ⟨r,hr,rfl⟩ := mem_map.mp hx
        obtain ⟨hmem,hp⟩ := mem_kids.mp hr
        exact (hvoids r (mem_kids.mpr ⟨mem_append_right _ (mem_cons_of_mem _ hmem),hp⟩)).2.le
      have hsplit : kids (pre ++ v :: post) a.transactionID = kids pre a.transactionID ++ v :: kids post a.transactionID := by
        rw [kids_append]
        exact congrArg _ (filter_cons_of_pos (decide_eq_true hparent))
      rw [hsplit,map_append,sum_append,map_cons,sum_cons]
      omega
    · obtain rfl := hjournal.eq_of_id hpre hp (hparent.symm.trans hchild.parent)
      rw [hold] at hqueued
      cases hqueued

/-- What a reservation of the given amount between the endpoints of a hold means for a balance. -/
def reserved (a : Row) (id : String) (x : ℤ) : ℤ × ℤ × ℤ :=
  (0,if a.destination = id then x else 0,if a.source = id then x else 0)

theorem reserved_add (a : Row) (id : String) (x y : ℤ) : reserved a id (x+y) = reserved a id x+reserved a id y := by
  simp only [reserved,Prod.mk_add_mk,add_zero]
  split <;> split <;> simp

theorem net_of_hold (hold : a.status = .inflight) (id : String) : (a.delta id).net = reserved a id a.minor := by
  rw [delta,movement_of_hold hold,reserved]
  simp only
  split <;> split <;> simp [net,debitSide,creditSide,minor]

theorem net_of_void (hv : r.status = .void) (hs : r.source = a.source) (hd : r.destination = a.destination) (id : String) :
    (r.delta id).net = reserved a id (-r.minor) := by
  rw [delta,movement_of_void hv,reserved,hs,hd]
  simp only
  split <;> split <;> simp [net,debitSide,creditSide,minor]

theorem sum_reserved (a : Row) (id : String) (l : List Row) :
    (l.map fun r => reserved a id (-r.minor)).sum = reserved a id (-(l.map minor).sum) := by
  induction l with
  | nil => simp [reserved,Prod.zero_eq_mk]
  | cons r l ih => rw [map_cons,sum_cons,ih,← reserved_add,map_cons,sum_cons,neg_add]

/-- A hold with a void is released. -/
theorem Undisturbed.held_nets_zero (hu : Undisturbed groups rows) (hj : Journal rows) (hb : Bounded rows)
    (ha : a ∈ family groups rows) (hold : a.status = .inflight) (hamount : ∃ x, a.preciseAmount = some x) {v : Row}
    (hv : v ∈ rows) (hparent : v.parentTransaction = a.transactionID) (id : String) :
    ((family groups rows).map fun r => if Undoes rows r a then (r.delta id).net else 0).sum = 0 := by
  have harow := mem_of_mem_family ha
  have hmeets : ∀ r ∈ family groups rows, Undoes rows r a ↔ r = a ∨ r.parentTransaction = a.transactionID := by
    intro r hr
    have hmem := mem_of_mem_family hr
    constructor
    · rintro (he | ⟨-,hp⟩ | ⟨-,hp | ⟨i,hi,hintent,hia,-⟩⟩)
      · exact .inl he
      · exact .inr hp
      · exact .inr hp
      · have hs := (hu.void_of_hold hj ha hold hi hia).1
        rcases hintent with hc | hc <;> rw [hs] at hc <;> cases hc
    · rintro (he | hp)
      · exact .inl he
      · exact .inr (.inl ⟨(hu.void_of_hold hj ha hold hmem hp).1,hp⟩)
  have hown : a.parentTransaction ≠ a.transactionID := by
    obtain ⟨_,_,_,_,hunused,_⟩ := hj.origin harow
    exact hunused.own
  have hkids : ((family groups rows).filter fun r => r.parentTransaction = a.transactionID).Perm (kids rows a.transactionID) := by
    refine (perm_ext_iff_of_nodup ((family_nodup hj).filter _) ((List.Nodup.of_map _ hj.ids_nodup).filter _)).mpr ?_
    intro r
    rw [mem_filter,mem_filter,decide_eq_true_eq]
    exact ⟨fun h => ⟨mem_of_mem_family h.1,h.2⟩,fun h => ⟨mem_family_of_parent hj h.1 ha h.2,h.2⟩⟩
  have hvoids : ((kids rows a.transactionID).map fun r => (r.delta id).net) =
      (kids rows a.transactionID).map fun r => reserved a id (-r.minor) := by
    refine map_congr_left fun r hr => ?_
    obtain ⟨hmem,hp⟩ := mem_kids.mp hr
    obtain ⟨hs,hsource,hdestination,-⟩ := hu.void_of_hold hj ha hold hmem hp
    exact net_of_void hs hsource hdestination id
  rw [sum_insert (family_nodup hj) ha hmeets hown,← sum_filter,(hkids.map _).sum_eq,hvoids,sum_reserved,
    hu.voids_total hj hb ha hold hamount hv hparent,net_of_hold hold,← reserved_add,add_neg_cancel]
  simp [reserved]

variable {c : Row}

theorem net_of_reversal (ha : a.status = .applied) (haction : a.queueAction ≠ .commit) (hc : c.status = .applied)
    (hcaction : c.queueAction ≠ .commit) (hlegs : reversesLegs c a = true) (id : String) :
    (a.delta id).net+(c.delta id).net = 0 := by
  simp only [reversesLegs,Bool.and_eq_true,decide_eq_true_eq] at hlegs
  obtain ⟨⟨hsource,hdestination⟩,hamount⟩ := hlegs
  have hma : a.movement = some .plain := by rw [movement,ha]; exact if_neg haction
  have hmc : c.movement = some .plain := by rw [movement,hc]; exact if_neg hcaction
  rw [delta,delta,hma,hmc,hsource,hdestination,hamount]
  simp only
  split <;> split <;> simp [net,debitSide,creditSide]

/-- The one row that reverses an applied row of the group. -/
theorem Undisturbed.reversal_unique (hu : Undisturbed groups rows) (hj : Journal rows) (ha : a ∈ family groups rows)
    (happlied : a.status = .applied) (hc : c ∈ rows) (hparent : c.parentTransaction = a.transactionID)
    (hdrained : c.IsIntent → ∃ x ∈ rows, x.parentTransaction = c.transactionID ∧ x.IsTerminal) :
    ∃ x ∈ family groups rows, ReversesVia rows x a ∧ reversesLegs x a = true ∧
      ∀ r ∈ family groups rows, ReversesVia rows r a → r = x := by
  have harow := mem_of_mem_family ha
  have hreverses := hj.appliedChild harow happlied hc hparent
  have hcmem := mem_family_of_parent hj hc ha hparent
  have honly : ∀ i ∈ rows, i.parentTransaction = a.transactionID → i = c := fun i hi hia =>
    hj.eq_of_reference hi hc ((hj.appliedChild harow happlied hi hia).reference.trans hreverses.reference.symm)
  rcases hreverses.status with hintent | hposted
  · obtain ⟨x,hx,hxc,hterminal⟩ := hdrained hintent
    have hxmem := mem_family_of_parent hj hx hcmem hxc
    have hitem : c.parentTransaction ∉ groups := fun hg => hu.apart a harow (hparent ▸ hg)
    obtain ⟨hstatus,hlegs⟩ : x.status = .applied ∧ reversesLegs x a = true := by
      cases hj.intentChild hc hintent hx hxc with
      | execution _ status _ repeats =>
        rw [hreverses.inflight] at status
        have hlegs := hreverses.legs
        simp only [reversesLegs,Bool.and_eq_true,decide_eq_true_eq] at hlegs ⊢
        rw [repeats.source,repeats.destination,repeats.preciseAmount]
        exact ⟨status,hlegs⟩
      | rejection status => exact absurd (hu.carried x hxmem status c hc hxc) hitem
      | completion _ status action => exact absurd action (hu.uncommitted x hxmem (.inl status))
      | void _ status => rcases hterminal with hs | hs | hs <;> rw [status] at hs <;> cases hs
    refine ⟨x,hxmem,⟨hstatus,.inr ⟨c,hc,hintent,hparent,hxc⟩⟩,hlegs,fun r hr hvia => ?_⟩
    obtain ⟨happlied,hra | ⟨i,hi,-,hia,hri⟩⟩ := hvia
    · obtain rfl := honly r (mem_of_mem_family hr) hra
      exact absurd hintent (not_intent_of_posted (.inl happlied))
    · obtain rfl := honly i hi hia
      exact hj.terminal_unique hc hintent (mem_of_mem_family hr) hri (.inl happlied) hx hxc hterminal
  · refine ⟨c,hcmem,⟨hposted,.inl hparent⟩,hreverses.legs,fun r hr hvia => ?_⟩
    obtain ⟨-,hra | ⟨i,hi,hiintent,hia,-⟩⟩ := hvia
    · exact honly r (mem_of_mem_family hr) hra
    · obtain rfl := honly i hi hia
      exact absurd hiintent (not_intent_of_posted (.inl hposted))

theorem Undisturbed.applied_nets_zero (hu : Undisturbed groups rows) (hj : Journal rows) (ha : a ∈ family groups rows)
    (happlied : a.status = .applied) (hc : c ∈ rows) (hparent : c.parentTransaction = a.transactionID)
    (hdrained : c.IsIntent → ∃ x ∈ rows, x.parentTransaction = c.transactionID ∧ x.IsTerminal) (id : String) :
    ((family groups rows).map fun r => if Undoes rows r a then (r.delta id).net else 0).sum = 0 := by
  have harow := mem_of_mem_family ha
  obtain ⟨x,hx,hvia,hlegs,honly⟩ := hu.reversal_unique hj ha happlied hc hparent hdrained
  have hvoid : ∀ r ∈ rows, r.parentTransaction = a.transactionID → r.status ≠ .void := by
    intro r hr hra hs
    rcases (hj.appliedChild harow happlied hr hra).status with (hc | hc) | hc <;> rw [hs] at hc <;> cases hc
  have hmeets : ∀ r ∈ family groups rows, Undoes rows r a ↔ r = a ∨ r = x := by
    intro r hr
    constructor
    · rintro (he | ⟨hs,hra⟩ | hr')
      · exact .inl he
      · exact absurd hs (hvoid r (mem_of_mem_family hr) hra)
      · exact .inr (honly r hr hr')
    · rintro (he | rfl)
      · exact .inl he
      · exact .inr (.inr hvia)
  have hne : a ≠ x := by
    rintro rfl
    obtain ⟨-,hown | ⟨i,hi,hintent,hia,hai⟩⟩ := hvia
    · obtain ⟨_,_,_,_,hunused,_⟩ := hj.origin harow
      exact hunused.own hown
    -- the intent would have to be stored before and after the posting
    obtain ⟨pre,_,_,hpre,_,hunused,_⟩ := hj.parent_before hi harow hai
    exact hunused.parent i hpre hia
  rw [sum_insert (family_nodup hj) ha hmeets hne,sum_single (family_nodup hj) hx (· = x) fun _ _ => Iff.rfl]
  exact net_of_reversal happlied (hu.uncommitted a ha (.inl happlied)) hvia.1 (hu.uncommitted x hx (.inl hvia.1)) hlegs id

def Drained (groups : List String) (rows : List Row) : Prop :=
  ∀ i ∈ family groups rows, i.IsIntent → ∃ c ∈ rows, c.parentTransaction = i.transactionID ∧ c.IsTerminal
deriving Decidable

def Compensated (groups : List String) (rows : List Row) : Prop :=
  ∀ a ∈ rows, EffectOf groups rows a → ∃ c ∈ rows, c.parentTransaction = a.transactionID

theorem netEffect_eq_zero (hj : Journal rows) (hb : Bounded rows) (hamount : ∀ a ∈ rows, ∃ x, a.preciseAmount = some x)
    (hu : Undisturbed groups rows) (hd : Drained groups rows) (hc : Compensated groups rows) (id : String) :
    netEffect groups rows id = 0 := by
  rw [netEffect,net_replay]
  apply sum_eq_zero_of_groups ((family_nodup hj).filter _) (Undoes rows) fun r hr => hu.undoes_unique hj hr id
  intro a ha
  obtain ⟨harow,heffect⟩ := (mem_effects hj).mp ha
  have hamem := (mem_filter.mp ha).1
  obtain ⟨c,hcrow,hparent⟩ := hc a harow heffect
  rcases heffect.1 with happlied | hold
  · exact hu.applied_nets_zero hj hamem happlied hcrow hparent (hd c (mem_family_of_parent hj hcrow hamem hparent)) id
  · exact hu.held_nets_zero hj hb hamem hold (hamount a harow) hcrow hparent id

end Effects

end LedgerForge
