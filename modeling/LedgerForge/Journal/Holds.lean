import LedgerForge.Journal.Rows

/-! # Holds and their settlements

What remains of a hold is its amount less the rows that settle it, directly or by completing one of
its queued commits. In a journal whose voids release holds, the inflight counters that the rows
replay to are the sums of what remains of the holds.
-/

namespace LedgerForge

open List Movement Counters

def Settles (rows : List Row) (h r : Row) : Prop :=
  r.IsSettled ∧ (r.parentTransaction = h.transactionID ∨
    ∃ q ∈ rows, q.IsQueuedCommit ∧ q.parentTransaction = h.transactionID ∧ r.parentTransaction = q.transactionID)
deriving Decidable

def settledAmount (rows : List Row) (h : Row) : ℤ := (rows.map fun r => if Settles rows h r then r.minor else 0).sum

def unsettled (rows : List Row) (h : Row) : ℤ := h.minor-settledAmount rows h

def held (endpoint : Row → String) (rows : List Row) (id : String) : ℤ :=
  (rows.map fun h => if h.status = .inflight ∧ endpoint h = id then unsettled rows h else 0).sum

def VoidsRelease (rows : List Row) : Prop :=
  ∀ r ∈ rows, r.status = .void → ∃ h ∈ rows, h.status = .inflight ∧ r.parentTransaction = h.transactionID

section Append

variable {rows : List Row} {r : Row}

theorem settles_append (hu : Unused rows r) {h x : Row} (hx : x ∈ rows ++ [r]) :
    Settles (rows ++ [r]) h x ↔ Settles rows h x := by
  have hne : x.parentTransaction ≠ r.transactionID := by
    rcases mem_append.mp hx with hx | hx
    · exact hu.parent x hx
    · exact mem_singleton.mp hx ▸ hu.own
  refine and_congr_right fun _ => or_congr_right ⟨?_,?_⟩
  · rintro ⟨q,hq,hcommit,hparent,hchild⟩
    rcases mem_append.mp hq with hq | hq
    · exact ⟨q,hq,hcommit,hparent,hchild⟩
    · exact absurd (mem_singleton.mp hq ▸ hchild) hne
  · rintro ⟨q,hq,hrest⟩
    exact ⟨q,mem_append_left _ hq,hrest⟩

theorem settledAmount_append (hu : Unused rows r) (h : Row) :
    settledAmount (rows ++ [r]) h = settledAmount rows h+if Settles rows h r then r.minor else 0 := by
  rw [settledAmount,map_append,sum_append,map_singleton,sum_singleton]
  congr 1
  · refine congrArg List.sum (map_congr_left fun x hx => ?_)
    rw [if_congr (settles_append hu (mem_append_left _ hx)) rfl rfl]
  · rw [if_congr (settles_append hu (mem_append_right _ (mem_singleton_self r))) rfl rfl]

theorem not_settles_of_unused (hu : Unused rows r) {x : Row} (hx : x ∈ rows ++ [r]) : ¬ Settles rows r x := by
  have hne : ∀ y ∈ rows ++ [r], y.parentTransaction ≠ r.transactionID := by
    intro y hy
    rcases mem_append.mp hy with hy | hy
    · exact hu.parent y hy
    · exact mem_singleton.mp hy ▸ hu.own
  rintro ⟨-,hparent | ⟨q,hq,-,hparent,-⟩⟩
  · exact hne x hx hparent
  · exact hne q (mem_append_left _ hq) hparent

theorem settledAmount_new (hu : Unused rows r) : settledAmount (rows ++ [r]) r = 0 := by
  refine sum_eq_zero fun v hv => ?_
  obtain ⟨x,hx,rfl⟩ := mem_map.mp hv
  rw [if_neg ((settles_append hu hx).not.mpr (not_settles_of_unused hu hx))]

theorem held_append (hu : Unused rows r) (endpoint : Row → String) (id : String) :
    held endpoint (rows ++ [r]) id = held endpoint rows id-
      (rows.map fun h => if h.status = .inflight ∧ endpoint h = id ∧ Settles rows h r then r.minor else 0).sum+
      if r.status = .inflight ∧ endpoint r = id then r.minor else 0 := by
  have hsplit : held endpoint rows id =
      (rows.map fun h => if h.status = .inflight ∧ endpoint h = id then unsettled (rows ++ [r]) h else 0).sum+
      (rows.map fun h => if h.status = .inflight ∧ endpoint h = id ∧ Settles rows h r then r.minor else 0).sum := by
    rw [← sum_map_add]
    refine congrArg List.sum (map_congr_left fun h _ => ?_)
    by_cases hh : h.status = .inflight ∧ endpoint h = id
    · rw [if_pos hh,if_pos hh,unsettled,unsettled,settledAmount_append hu]
      by_cases hs : Settles rows h r
      · rw [if_pos hs,if_pos ⟨hh.1,hh.2,hs⟩]
        ring
      · rw [if_neg hs,if_neg fun hc => hs hc.2.2]
        ring
    · rw [if_neg hh,if_neg hh,if_neg fun hc => hh ⟨hc.1,hc.2.1⟩,add_zero]
  have hnew : unsettled (rows ++ [r]) r = r.minor := by rw [unsettled,settledAmount_new hu,sub_zero]
  rw [hsplit,held,map_append,sum_append,map_singleton,sum_singleton,hnew]
  ring

end Append

/-- What a row does to the holds before it. -/
inductive Release (rows : List Row) (r : Row) : Prop
  | one (h : Row) (mem : h ∈ rows) (hold : h.status = .inflight) (source : r.source = h.source)
      (destination : r.destination = h.destination) (movement : r.movement = some .commit ∨ r.movement = some .void)
      (only : ∀ x ∈ rows, x.status = .inflight → (Settles rows x r ↔ x = h))
  | none (movement : r.movement = .none ∨ r.movement = some .plain ∨ r.movement = some .hold ∧ r.status = .inflight)
      (hold : r.status = .inflight → r.movement = some .hold)
      (never : ∀ x ∈ rows, x.status = .inflight → ¬ Settles rows x r)

section Release

variable {rows : List Row} {r : Row}

variable {h : Row}

theorem sameTerms_iff : sameTerms r h = true ↔ r.source = h.source ∧ r.destination = h.destination ∧
    r.precision = h.precision ∧ r.currency = h.currency ∧ r.rate = h.rate := by
  simp [sameTerms,and_assoc]

theorem Journal.hold_of_queuedCommit (hj : Journal rows) {q : Row} (hq : q ∈ rows) (hc : q.IsQueuedCommit) :
    ∃ h ∈ rows, h.status = .inflight ∧ q.parentTransaction = h.transactionID ∧ sameTerms q h = true := by
  obtain ⟨pre,post,rfl,-,-,horigin⟩ := hj.origin hq
  cases horigin with
  | settlement h mem child hold status positive terms bound =>
    exact ⟨h,mem_append_left _ mem,hold,child.parent,terms⟩
  | request parent status action => rw [hc.2] at action; cases action
  | execution i mem child intent plain status action repeats reference queuedParent => rw [hc.2] at action; cases action
  | rejection i mem child intent status reference => rw [hc.1] at status; cases status
  | completion q mem child queued status action repeats reference only => rw [hc.1] at status; cases status
  | reversal o mem child applied status action inflight reverses currency precision reference =>
    rw [hc.2] at action
    cases action
  | intentVoid i mem child queued status => rw [hc.1] at status; cases status

theorem not_settles_of_parent (hj : Journal rows) {p : Row} (hp : p ∈ rows)
    (hparent : r.parentTransaction = p.transactionID) (hhold : p.status ≠ .inflight) (hcommit : ¬ p.IsQueuedCommit)
    {x : Row} (hx : x ∈ rows) (hhx : x.status = .inflight) : ¬ Settles rows x r := by
  rintro ⟨-,hdirect | ⟨q,hq,hqc,-,hvia⟩⟩
  · obtain rfl := hj.eq_of_id hx hp (hdirect ▸ hparent)
    exact hhold hhx
  · obtain rfl := hj.eq_of_id hq hp (hvia ▸ hparent)
    exact hcommit hqc

theorem not_settles_of_status {x : Row} (h : ¬ r.IsSettled) : ¬ Settles rows x r := fun hs => h hs.1

theorem release_none (hstatus : ¬ r.IsSettled ∨ r.status = .applied ∧ r.queueAction = .unset)
    (hnever : ∀ x ∈ rows, x.status = .inflight → ¬ Settles rows x r) : Release rows r := by
  refine .none ?_ movement_of_hold hnever
  rcases hstatus with hs | ⟨hs,ha⟩
  · rw [Row.IsSettled] at hs
    cases hr : r.status <;> simp_all [Row.movement]
  · exact .inr (.inl (by rw [Row.movement,hs,ha]; rfl))

theorem release_one (hh : h ∈ rows) (hold : h.status = .inflight) (hterms : r.source = h.source ∧
    r.destination = h.destination) (hmove : r.movement = some .commit ∨ r.movement = some .void)
    (hsettles : Settles rows h r) (honly : ∀ x ∈ rows, x.status = .inflight → Settles rows x r → x = h) :
    Release rows r :=
  .one h hh hold hterms.1 hterms.2 hmove fun x hx hx' => ⟨honly x hx hx',fun he => he ▸ hsettles⟩

theorem release_of_settlement (hj : Journal rows) (hh : h ∈ rows) (hold : h.status = .inflight)
    (hparent : r.parentTransaction = h.transactionID) (hterms : sameTerms r h = true) (hsettled : r.IsSettled)
    (hmove : r.movement = some .commit ∨ r.movement = some .void) : Release rows r := by
  have hends := sameTerms_iff.mp hterms
  refine release_one hh hold ⟨hends.1,hends.2.1⟩ hmove ⟨hsettled,.inl hparent⟩ fun x hx _ hs => ?_
  rcases hs.2 with hdirect | ⟨q,hq,hqc,-,hvia⟩
  · exact hj.eq_of_id hx hh (hdirect ▸ hparent)
  obtain rfl := hj.eq_of_id hq hh (hvia ▸ hparent)
  rw [hqc.1] at hold
  cases hold

theorem release_of_completion (hj : Journal rows) {q : Row} (hq : q ∈ rows) (hqc : q.IsQueuedCommit)
    (hparent : r.parentTransaction = q.transactionID) (hrepeats : r.Repeats q) (hstatus : r.status = .applied)
    (haction : r.queueAction = .commit) : Release rows r := by
  obtain ⟨h,hh,hold,hqh,hterms⟩ := hj.hold_of_queuedCommit hq hqc
  have hends := sameTerms_iff.mp hterms
  refine release_one hh hold ⟨hrepeats.source.trans hends.1,hrepeats.destination.trans hends.2.1⟩
    (.inl (movement_of_committed hstatus haction)) ⟨.inl hstatus,.inr ⟨q,hq,hqc,hqh,hparent⟩⟩ fun x hx hx' hs => ?_
  rcases hs.2 with hdirect | ⟨q',hq',-,hxq,hvia⟩
  · obtain rfl := hj.eq_of_id hx hq (hdirect ▸ hparent)
    rw [hqc.1] at hx'
    cases hx'
  · obtain rfl := hj.eq_of_id hq' hq (hvia ▸ hparent)
    exact hj.eq_of_id hx hh (hxq ▸ hqh)

/-- Every row of a journal whose voids release holds settles one hold or none. -/
theorem release_of_origin (hj : Journal rows) (ho : Origin rows r)
    (hv : r.status = .void → ∃ h ∈ rows, h.status = .inflight ∧ r.parentTransaction = h.transactionID) :
    Release rows r := by
  have hunset : ∀ {p : Row}, p.queueAction = .unset → ¬ p.IsQueuedCommit := fun hp hc => by
    rw [hc.2] at hp
    cases hp
  cases ho with
  | request parent status action =>
    have hroot : ∀ x ∈ rows, r.parentTransaction ≠ x.transactionID := by
      intro x hx he
      rcases parent with hp | ⟨-,hp⟩
      · exact hj.id_ne_empty hx (he ▸ hp)
      · exact hp x hx he.symm
    refine release_none ?_ fun x hx _ hs => ?_
    · rcases status with (h | h) | h | h
      · exact .inl (by simp [Row.IsSettled,h])
      · exact .inl (by simp [Row.IsSettled,h])
      · exact .inr ⟨h,action⟩
      · exact .inl (by simp [Row.IsSettled,h])
    · rcases hs.2 with hdirect | ⟨q,hq,-,-,hvia⟩
      · exact hroot x hx hdirect
      · exact hroot q hq hvia
  | execution i mem child intent plain status action repeats reference queuedParent =>
    refine release_none ?_ fun x hx hx' => not_settles_of_parent hj mem child.parent ?_ (hunset plain) hx hx'
    · split at status
      · exact .inl (by simp [Row.IsSettled,status])
      · exact .inr ⟨status,action⟩
    · rcases intent with h | h <;> simp [h]
  | rejection i mem child intent status reference =>
    have hs : ¬ r.IsSettled := by simp [Row.IsSettled,status]
    exact release_none (.inl hs) fun x _ _ => not_settles_of_status hs
  | settlement h mem child hold status positive terms bound =>
    rcases status with hs | ⟨hs | hs,ha⟩
    · exact release_of_settlement hj mem hold child.parent terms (.inr hs) (.inr (movement_of_void hs))
    · exact release_of_settlement hj mem hold child.parent terms (.inl hs) (.inl (movement_of_committed hs ha))
    · have hn : ¬ r.IsSettled := by simp [Row.IsSettled,hs]
      exact release_none (.inl hn) fun x _ _ => not_settles_of_status hn
  | completion q mem child queued status action repeats reference only =>
    exact release_of_completion hj mem queued child.parent repeats status action
  | reversal o mem child applied status action inflight reverses currency precision reference =>
    refine release_none ?_ fun x hx hx' => not_settles_of_parent hj mem child.parent (by simp [applied]) (fun hc => ?_) hx hx'
    · rcases status with (hs | hs) | hs
      · exact .inl (by simp [Row.IsSettled,hs])
      · exact .inl (by simp [Row.IsSettled,hs])
      · exact .inr ⟨hs,action⟩
    · rw [hc.1] at applied
      cases applied
  | intentVoid i mem child queued status =>
    obtain ⟨h,hh,hold,hparent⟩ := hv status
    obtain rfl := hj.eq_of_id mem hh (child.parent ▸ hparent)
    rw [queued] at hold
    cases hold

end Release

def Movement.reservation (m : Movement) (a : ℤ) : ℤ :=
  match m with
  | .plain => 0
  | .hold => a
  | .commit => -a
  | .void => -a

def Row.reservation (r : Row) (endpoint : Row → String) (id : String) : ℤ :=
  match r.movement with
  | none => 0
  | some m => if endpoint r = id then m.reservation r.minor else 0

theorem delta_inflightDebit (r : Row) (id : String) : (r.delta id).inflightDebit = r.reservation Row.source id := by
  rw [Row.delta,Row.reservation]
  cases r.movement with
  | none => rfl
  | some m =>
    simp only [add_inflightDebit]
    split <;> split <;> cases m <;> simp [debitSide,creditSide,reservation,Row.minor]

theorem delta_inflightCredit (r : Row) (id : String) :
    (r.delta id).inflightCredit = r.reservation Row.destination id := by
  rw [Row.delta,Row.reservation]
  cases r.movement with
  | none => rfl
  | some m =>
    simp only [add_inflightCredit]
    split <;> split <;> cases m <;> simp [debitSide,creditSide,reservation,Row.minor]

variable {rows : List Row}

/-- Appending a row changes the reservations by the reservation the row replays to. -/
theorem held_append_eq {r : Row} (hj : Journal rows) (hu : Unused rows r) (hrel : Release rows r)
    {endpoint : Row → String} (hend : endpoint = Row.source ∨ endpoint = Row.destination) (id : String) :
    held endpoint (rows ++ [r]) id = held endpoint rows id+r.reservation endpoint id := by
  have hnodup : rows.Nodup := List.Nodup.of_map _ hj.ids_nodup
  rw [held_append hu]
  cases hrel with
  | one h mem hold source destination movement only =>
    have hsame : endpoint r = endpoint h := by
      rcases hend with rfl | rfl
      · exact source
      · exact destination
    have hnot : r.status ≠ .inflight := by
      intro hs
      rw [movement_of_hold hs] at movement
      rcases movement with hm | hm <;> cases hm
    have hsum : (rows.map fun x => if x.status = .inflight ∧ endpoint x = id ∧ Settles rows x r then r.minor else 0).sum =
        if endpoint h = id then r.minor else 0 := by
      rw [sum_map_eq_nsmul_single h _ fun x hne hx => ?_,count_eq_one_of_mem hnodup mem,one_nsmul]
      · exact if_congr ⟨fun hc => hc.2.1,fun hc => ⟨hold,hc,(only h mem hold).mpr rfl⟩⟩ rfl rfl
      · exact if_neg fun hc => hne ((only x hx hc.1).mp hc.2.2)
    have hres : r.reservation endpoint id = -(if endpoint h = id then r.minor else 0) := by
      rw [Row.reservation,hsame]
      rcases movement with hm | hm <;> rw [hm] <;> simp only <;> split <;> simp [reservation]
    have hnew : (if r.status = .inflight ∧ endpoint r = id then r.minor else 0) = 0 := if_neg fun hc => hnot hc.1
    rw [hsum,hres,hnew]
    ring
  | none movement hold never =>
    have hsum : (rows.map fun x => if x.status = .inflight ∧ endpoint x = id ∧ Settles rows x r then r.minor else 0).sum =
        0 := by
      refine sum_eq_zero fun v hv => ?_
      obtain ⟨x,hx,rfl⟩ := mem_map.mp hv
      exact if_neg fun hc => never x hx hc.1 hc.2.2
    have hres : r.reservation endpoint id = if r.status = .inflight ∧ endpoint r = id then r.minor else 0 := by
      rw [Row.reservation]
      rcases movement with hm | hm | ⟨hm,hs⟩
      · rw [hm,if_neg fun hc => by rw [hold hc.1] at hm; cases hm]
      · rw [hm,if_neg fun hc => by rw [hold hc.1] at hm; cases hm]
        simp [reservation]
      · rw [hm]
        simp [hs,reservation]
    rw [hsum,hres,sub_zero]

theorem VoidsRelease.of_append {r : Row} (hu : Unused rows r) (h : VoidsRelease (rows ++ [r])) :
    VoidsRelease rows ∧ (r.status = .void → ∃ h ∈ rows, h.status = .inflight ∧ r.parentTransaction = h.transactionID) := by
  refine ⟨fun x hx hs => ?_,fun hs => ?_⟩
  · obtain ⟨p,hp,hold,hparent⟩ := h x (mem_append_left _ hx) hs
    rcases mem_append.mp hp with hp | hp
    · exact ⟨p,hp,hold,hparent⟩
    · exact absurd (mem_singleton.mp hp ▸ hparent) (hu.parent x hx)
  · obtain ⟨p,hp,hold,hparent⟩ := h r (mem_append_right _ (mem_singleton_self r)) hs
    rcases mem_append.mp hp with hp | hp
    · exact ⟨p,hp,hold,hparent⟩
    · exact absurd (mem_singleton.mp hp ▸ hparent) hu.own

theorem replay_inflight (hj : Journal rows) (hv : VoidsRelease rows) (id : String) :
    (replay rows id).inflightDebit = held Row.source rows id ∧
      (replay rows id).inflightCredit = held Row.destination rows id := by
  induction hj with
  | nil => exact ⟨rfl,rfl⟩
  | @snoc rows r hj hu ho ih =>
    obtain ⟨hv',hvr⟩ := hv.of_append hu
    have hrel := release_of_origin hj ho hvr
    obtain ⟨hdebit,hcredit⟩ := ih hv'
    have hlast : replay [r] id = r.delta id := zero_add _
    rw [replay_append,hlast,add_inflightDebit,add_inflightCredit,hdebit,hcredit,delta_inflightDebit,
      delta_inflightCredit,held_append_eq hj hu hrel (.inl rfl),held_append_eq hj hu hrel (.inr rfl)]
    exact ⟨rfl,rfl⟩

end LedgerForge
