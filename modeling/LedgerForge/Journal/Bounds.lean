import LedgerForge.Journal.Rows
import LedgerForge.Storage.Trigger

/-! # Settlement bounds

What the lifecycle trigger maintains about the children of holds and queued commits: a queued commit has at most one
child, which repeats it, and the children of a hold consume at most its amount.
-/

namespace LedgerForge

open List Bool Row Keyed

variable {r : Row} {a : ℤ}

theorem minor_of_some (h : r.preciseAmount = some a) : r.minor = a := by
  rw [minor,h,Option.getD_some]

def kids (rows : List Row) (id : String) : List Row := rows.filter fun r => r.parentTransaction = id

variable {rows : List Row} {id : String}

theorem mem_kids : r ∈ kids rows id ↔ r ∈ rows ∧ r.parentTransaction = id := by
  rw [kids,mem_filter,decide_eq_true_eq]

theorem kids_append (rows rows' : List Row) (id : String) : kids (rows ++ rows') id = kids rows id ++ kids rows' id :=
  filter_append _ _

theorem kids_eq_nil : kids rows id = [] ↔ ∀ r ∈ rows, r.parentTransaction ≠ id := by
  simp [kids,filter_eq_nil_iff]

theorem kids_singleton (r : Row) (id : String) : kids [r] id = if r.parentTransaction = id then [r] else [] := by
  simp [kids,filter_singleton]

/-- A settlement, or a queued commit that is not rejected. -/
def counts (rows : List Row) (t : Row) : Bool :=
  t.status = .applied || t.status = .void || (t.status = .queued && t.queueAction = .commit && !hasRejectedChild rows t.transactionID)

theorem consumed_eq (rows : List Row) (id : String) :
    consumed rows id = ((kids rows id).map fun t => if counts rows t then t.minor else 0).sum := by
  have hsplit : ∀ l : List Row, ((l.filter (consumes rows id)).map fun t => t.preciseAmount.getD 0).sum =
      ((kids l id).map fun t => if counts rows t then t.minor else 0).sum := by
    intro l
    induction l with
    | nil => rfl
    | cons x l ih =>
      rw [kids] at ih ⊢
      by_cases hp : x.parentTransaction = id
      · have hc : consumes rows id x = counts rows x := by simp [consumes,counts,hp]
        cases hx : counts rows x <;> simp [hp,hc,hx,ih,minor]
      · have hc : consumes rows id x = false := by simp [consumes,hp]
        simp [hp,hc,ih]
  exact hsplit rows

def settledChildren (rows : List Row) (id : String) : ℤ :=
  (((kids rows id).filter fun r => r.IsSettled).map minor).sum

/-- The queued commits below a row that are not rejected. -/
def pendingCommits (rows : List Row) (id : String) : ℤ :=
  (((kids rows id).filter fun q => q.IsQueuedCommit ∧ hasRejectedChild rows q.transactionID = false).map minor).sum

theorem consumed_eq_add (rows : List Row) (id : String) :
    consumed rows id = settledChildren rows id+pendingCommits rows id := by
  rw [consumed_eq,settledChildren,pendingCommits]
  induction kids rows id with
  | nil => rfl
  | cons x l ih =>
    have hcounts : counts rows x = (decide x.IsSettled ||
        decide (x.IsQueuedCommit ∧ hasRejectedChild rows x.transactionID = false)) := by
      rw [Bool.eq_iff_iff]
      simp only [counts,Bool.or_eq_true,Bool.and_eq_true,decide_eq_true_eq,Bool.not_eq_true']
      exact Iff.rfl
    have hdisjoint : x.IsSettled → ¬ x.IsQueuedCommit := by
      rintro (hs | hs) ⟨hq,-⟩ <;> rw [hs] at hq <;> cases hq
    rw [map_cons,sum_cons,ih,hcounts]
    by_cases hs : x.IsSettled
    · have hq : ¬ (x.IsQueuedCommit ∧ hasRejectedChild rows x.transactionID = false) := fun hq => hdisjoint hs hq.1
      simp [hs,hq,add_assoc]
    by_cases hq : x.IsQueuedCommit ∧ hasRejectedChild rows x.transactionID = false
    · simp [hs,hq]
      ring
    · simp [hs,hq]

def Row.IsLifecycleParent (r : Row) : Prop := r.status = .inflight ∨ r.IsQueuedCommit
deriving Decidable

structure Bounded (rows : List Row) : Prop where
  named : ∀ q ∈ rows, q.IsLifecycleParent → q.transactionID ≠ ""
  amount : ∀ h ∈ rows, h.status = .inflight → 0 ≤ h.minor
  commits : ∀ q ∈ rows, q.IsLifecycleParent → q.queueAction = .commit →
    (kids rows q.transactionID).length ≤ 1 ∧ ∀ r ∈ kids rows q.transactionID, completesCommit r q = true
  positive : ∀ h ∈ rows, h.status = .inflight → h.queueAction ≠ .commit →
    ∀ r ∈ kids rows h.transactionID, settlesHold r = true → 0 < r.minor
  holds : ∀ h ∈ rows, h.status = .inflight → h.queueAction ≠ .commit →
    ∀ a, h.preciseAmount = some a → consumed rows h.transactionID ≤ a

theorem counts_settles {t : Row} (h : counts rows t = true) : settlesHold t = true := by
  simp only [counts,settlesHold,or_eq_true,and_eq_true] at h ⊢
  rcases h with h | h
  · exact .inl h
  · exact .inr h.1.1

theorem counts_mono {rows' : List Row} {t : Row} (hsub : ∀ r ∈ rows, r ∈ rows') (h : counts rows' t = true) :
    counts rows t = true := by
  simp only [counts,hasRejectedChild,or_eq_true,and_eq_true,not_eq_true',any_eq_false] at h ⊢
  rcases h with h | ⟨h,hnone⟩
  · exact .inl h
  · exact .inr ⟨h,fun x hx => hnone x (hsub x hx)⟩

theorem consumed_mono {rows' : List Row} (hsub : ∀ r ∈ rows, r ∈ rows')
    (hkids : kids rows' id = kids rows id) (hpos : ∀ r ∈ kids rows id, settlesHold r = true → 0 < r.minor) :
    consumed rows' id ≤ consumed rows id := by
  rw [consumed_eq,consumed_eq,hkids]
  refine sum_le_sum fun t ht => ?_
  split
  · rename_i hc
    rw [if_pos (counts_mono hsub hc)]
  split
  · rename_i hc
    exact (hpos t ht (counts_settles hc)).le
  · exact le_rfl

section Append

variable {claims claims' : List RefundClaim}

theorem completion_of_child {q : Row} (hq : find transactionID rows r.parentTransaction = some q)
    (hne : r.parentTransaction ≠ "") (hp : q.IsLifecycleParent) (hcommit : q.queueAction = .commit)
    (h : Lifecycle rows claims r claims') : completesCommit r q = true ∧ kids rows q.transactionID = [] := by
  cases h with
  | root parent =>
    rcases parent with he | hnone
    · exact absurd he hne
    · rw [hq] at hnone
      cases hnone
  | reversal parent found _ applied =>
    cases hq.symm.trans found
    rcases hp with hs | hs
    · rw [hs] at applied
      cases applied
    · rw [hs.1] at applied
      cases applied
  | completion parent found _ _ completes only =>
    cases hq.symm.trans found
    exact ⟨completes,kids_eq_nil.mpr only⟩
  | settlement parent found _ unqueued =>
    cases hq.symm.trans found
    exact absurd hcommit unqueued
  | other parent found _ unqueued =>
    cases hq.symm.trans found
    exact absurd hcommit unqueued

theorem settlement_of_child {h : Row} (hh : find transactionID rows r.parentTransaction = some h)
    (hne : r.parentTransaction ≠ "") (hold : h.status = .inflight) (hplain : h.queueAction ≠ .commit)
    (hsettles : settlesHold r = true) (hl : Lifecycle rows claims r claims') :
    0 < r.minor ∧ withinRemaining rows r h = true ∧ (r.status = .queued → r.queueAction = .commit) := by
  cases hl with
  | root parent =>
    rcases parent with he | hnone
    · exact absurd he hne
    · rw [hh] at hnone
      cases hnone
  | reversal parent found _ applied =>
    cases hh.symm.trans found
    rw [hold] at applied
    cases applied
  | completion parent found _ queued =>
    cases hh.symm.trans found
    exact absurd queued hplain
  | settlement parent found _ _ _ _ action positive _ bound =>
    cases hh.symm.trans found
    exact ⟨positive,bound,action⟩
  | other parent found _ _ notHold =>
    cases hh.symm.trans found
    exact absurd ⟨hold,hsettles⟩ notHold

theorem consumed_append_kid {id : String} (hkid : r.parentTransaction = id)
    (hpos : ∀ x ∈ kids rows id, settlesHold x = true → 0 < x.minor) :
    consumed (rows ++ [r]) id ≤ consumed rows id+if counts (rows ++ [r]) r then r.minor else 0 := by
  have hkids : kids (rows ++ [r]) id = kids rows id ++ [r] := by rw [kids_append,kids_singleton,if_pos hkid]
  rw [consumed_eq,hkids,map_append,sum_append,map_singleton,sum_singleton,consumed_eq]
  refine Int.add_le_add_right (sum_le_sum fun t ht => ?_) _
  split
  · rename_i hc
    rw [if_pos (counts_mono (fun x hx => mem_append_left _ hx) hc)]
  split
  · rename_i hc
    exact (hpos t ht (counts_settles hc)).le
  · exact le_rfl

theorem kids_append_of_ne {id : String} (h : r.parentTransaction ≠ id) : kids (rows ++ [r]) id = kids rows id := by
  rw [kids_append,kids_singleton,if_neg h,append_nil]

/-- A row that the trigger may count against is inserted before anything refers to it, and a hold does
not have a negative amount. -/
structure Row.Introduced (rows : List Row) (r : Row) : Prop where
  named : r.IsLifecycleParent → r.transactionID ≠ ""
  first : r.IsLifecycleParent → ∀ x ∈ rows, x.parentTransaction ≠ r.transactionID
  amount : r.status = .inflight → 0 ≤ r.minor

instance (rows : List Row) (r : Row) : Decidable (r.Introduced rows) :=
  decidable_of_iff ((r.IsLifecycleParent → r.transactionID ≠ "") ∧
    (r.IsLifecycleParent → ∀ x ∈ rows, x.parentTransaction ≠ r.transactionID) ∧ (r.status = .inflight → 0 ≤ r.minor))
    ⟨fun h => ⟨h.1,h.2.1,h.2.2⟩,fun h => ⟨h.named,h.first,h.amount⟩⟩

theorem kids_introduced (hc : Checked rows claims r claims') (hi : r.Introduced rows) (hp : r.IsLifecycleParent) :
    kids (rows ++ [r]) r.transactionID = [] ∨ r.status = .inflight ∧ r.queueAction ≠ .commit ∧
      kids (rows ++ [r]) r.transactionID = [r] := by
  have hold : kids rows r.transactionID = [] := kids_eq_nil.mpr (hi.first hp)
  rw [kids_append,hold,kids_singleton]
  split
  · rename_i hself
    have hnone : find transactionID rows r.parentTransaction = none :=
      find_eq_none.mpr fun x hx => hself ▸ hc.freshID x hx
    have haction : r.queueAction = .unset := by
      cases lifecycle_cases hc.lifecycle with
      | root _ action => exact action
      | reversal parent found => rw [hnone] at found; cases found
      | completion parent found => rw [hnone] at found; cases found
      | settlement parent found => rw [hnone] at found; cases found
      | other parent found => rw [hnone] at found; cases found
    refine .inr ⟨hp.resolve_right fun hq => ?_,fun hq => ?_,rfl⟩
    · cases haction.symm.trans hq.2
    · rw [haction] at hq
      cases hq
  · exact .inl rfl

theorem Bounded.append (hb : Bounded rows) (hn : (rows.map transactionID).Nodup) (hc : Checked rows claims r claims')
    (hi : r.Introduced rows) : Bounded (rows ++ [r]) := by
  have hl := lifecycle_cases hc.lifecycle
  have hfound : ∀ {p : Row}, p ∈ rows → r.parentTransaction = p.transactionID →
      find transactionID rows r.parentTransaction = some p := fun hp he => he ▸ find_of_mem hn hp
  have hnew : r.status = .inflight → settlesHold r = false := fun hs => by simp [settlesHold,hs]
  refine ⟨fun p hp hparent => ?_,fun p hp hold => ?_,fun p hp hparent hcommit => ?_,fun p hp hold hplain => ?_,
    fun p hp hold hplain a ha => ?_⟩
  · rcases mem_append.mp hp with hp | hp
    · exact hb.named p hp hparent
    · exact mem_singleton.mp hp ▸ hi.named (mem_singleton.mp hp ▸ hparent)
  · rcases mem_append.mp hp with hp | hp
    · exact hb.amount p hp hold
    · exact mem_singleton.mp hp ▸ hi.amount (mem_singleton.mp hp ▸ hold)
  · rcases mem_append.mp hp with hp | hp
    · by_cases he : r.parentTransaction = p.transactionID
      · obtain ⟨hcompletes,hnone⟩ := completion_of_child (hfound hp he) (he ▸ hb.named p hp hparent) hparent hcommit hl
        rw [kids_append,kids_singleton,if_pos he,hnone]
        exact ⟨le_rfl,fun x hx => mem_singleton.mp hx ▸ hcompletes⟩
      · rw [kids_append_of_ne he]
        exact hb.commits p hp hparent hcommit
    · obtain rfl := mem_singleton.mp hp
      rcases kids_introduced hc hi hparent with hk | ⟨-,hplain,-⟩
      · rw [hk]
        exact ⟨Nat.zero_le _,fun x hx => absurd hx not_mem_nil⟩
      · exact absurd hcommit hplain
  · rcases mem_append.mp hp with hp | hp
    · by_cases he : r.parentTransaction = p.transactionID
      · intro x hx hsettles
        rw [kids_append,kids_singleton,if_pos he] at hx
        rcases mem_append.mp hx with hx | hx
        · exact hb.positive p hp hold hplain x hx hsettles
        have hxr := mem_singleton.mp hx
        rw [hxr] at hsettles ⊢
        exact (settlement_of_child (hfound hp he) (he ▸ hb.named p hp (.inl hold)) hold hplain hsettles hl).1
      · rw [kids_append_of_ne he]
        exact hb.positive p hp hold hplain
    · obtain rfl := mem_singleton.mp hp
      rcases kids_introduced hc hi (.inl hold) with hk | ⟨-,-,hk⟩
      · rw [hk]
        exact fun x hx => absurd hx not_mem_nil
      rw [hk]
      intro x hx hsettles
      rw [mem_singleton.mp hx,hnew hold] at hsettles
      cases hsettles
  · rcases mem_append.mp hp with hp | hp
    · by_cases he : r.parentTransaction = p.transactionID
      · refine (consumed_append_kid he (hb.positive p hp hold hplain)).trans ?_
        split
        · rename_i hcount
          obtain ⟨-,hwithin,-⟩ := settlement_of_child (hfound hp he) (he ▸ hb.named p hp (.inl hold)) hold hplain
            (counts_settles hcount) hl
          rw [withinRemaining,ha] at hwithin
          exact of_decide_eq_true hwithin
        · rw [add_zero]
          exact hb.holds p hp hold hplain a ha
      · exact (consumed_mono (fun x hx => mem_append_left _ hx) (kids_append_of_ne he)
          (hb.positive p hp hold hplain)).trans (hb.holds p hp hold hplain a ha)
    · obtain rfl := mem_singleton.mp hp
      have hzero : consumed (rows ++ [p]) p.transactionID = 0 := by
        rw [consumed_eq]
        rcases kids_introduced hc hi (.inl hold) with hk | ⟨-,-,hk⟩
        · rw [hk]
          rfl
        · rw [hk,map_singleton,sum_singleton]
          exact if_neg fun hcount => Bool.noConfusion ((hnew hold).symm.trans (counts_settles hcount))
      rw [hzero,← minor_of_some ha]
      exact hi.amount hold

end Append

theorem Bounded.nil : Bounded [] :=
  ⟨fun _ h => absurd h not_mem_nil,fun _ h => absurd h not_mem_nil,fun _ h => absurd h not_mem_nil,
    fun _ h => absurd h not_mem_nil,fun _ h => absurd h not_mem_nil⟩

/-- Two extensions of the same rows in which no row has children on both sides. -/
theorem Bounded.merge {base left right : List Row} (hl : Bounded (base ++ left)) (hr : Bounded (base ++ right))
    (hsep : ∀ p ∈ base ++ left ++ right, p.IsLifecycleParent →
      p ∈ base ++ left ∧ kids right p.transactionID = [] ∨ p ∈ base ++ right ∧ kids left p.transactionID = []) :
    Bounded (base ++ left ++ right) := by
  -- every row is judged by the side that holds its children
  have hview : ∀ p ∈ base ++ left ++ right, p.IsLifecycleParent → ∃ view, Bounded view ∧ p ∈ view ∧
      kids (base ++ left ++ right) p.transactionID = kids view p.transactionID ∧
      ∀ x ∈ view, x ∈ base ++ left ++ right := by
    intro p hp hparent
    rcases hsep p hp hparent with ⟨hmem,hnone⟩ | ⟨hmem,hnone⟩
    · refine ⟨base ++ left,hl,hmem,?_,fun x hx => mem_append_left _ hx⟩
      rw [kids_append (base ++ left),hnone,append_nil]
    refine ⟨base ++ right,hr,hmem,?_,fun x hx => ?_⟩
    · rw [kids_append,kids_append,hnone,append_nil,kids_append]
    · rcases mem_append.mp hx with hx | hx
      · exact mem_append_left _ (mem_append_left _ hx)
      · exact mem_append_right _ hx
  refine ⟨fun p hp hparent => ?_,fun p hp hold => ?_,fun p hp hparent => ?_,fun p hp hold => ?_,fun p hp hold hplain a ha => ?_⟩
  · obtain ⟨view,hb,hmem,-,-⟩ := hview p hp hparent
    exact hb.named p hmem hparent
  · obtain ⟨view,hb,hmem,-,-⟩ := hview p hp (.inl hold)
    exact hb.amount p hmem hold
  · obtain ⟨view,hb,hmem,hkids,-⟩ := hview p hp hparent
    rw [hkids]
    exact hb.commits p hmem hparent
  · obtain ⟨view,hb,hmem,hkids,-⟩ := hview p hp (.inl hold)
    rw [hkids]
    exact hb.positive p hmem hold
  · obtain ⟨view,hb,hmem,hkids,hsub⟩ := hview p hp (.inl hold)
    exact (consumed_mono hsub hkids (hb.positive p hmem hold hplain)).trans (hb.holds p hmem hold hplain a ha)

theorem Bounded.bound (hb : Bounded rows) {h : Row} (hh : h ∈ rows) (hold : h.status = .inflight) (ha : h.preciseAmount = some a) : consumed rows h.transactionID ≤ a := by
  have hnonneg : 0 ≤ a := minor_of_some ha ▸ hb.amount h hh hold
  by_cases hcommit : h.queueAction = .commit
  · obtain ⟨hlength,hcompletes⟩ := hb.commits h hh (.inl hold) hcommit
    rw [consumed_eq]
    match hk : kids rows h.transactionID with
    | [] => exact hnonneg
    | [r] =>
      have hr := hcompletes r (hk ▸ mem_singleton_self r)
      simp only [completesCommit,and_eq_true,decide_eq_true_eq] at hr
      have hminor : r.minor = a := minor_of_some (hr.1.1.1.1.2.trans ha)
      rw [map_singleton,sum_singleton]
      split
      · exact hminor.le
      · exact hnonneg
    | x :: y :: rest =>
      rw [hk] at hlength
      simp at hlength
  · exact hb.holds h hh hold hcommit a ha

theorem Bounded.amount_of_counts (hb : Bounded rows) {h : Row} (hh : h ∈ rows)
    (hold : h.status = .inflight) (ha : h.preciseAmount = some a) (hr : r ∈ kids rows h.transactionID)
    (hcount : counts rows r = true) : r.preciseAmount.isSome = true := by
  by_cases hcommit : h.queueAction = .commit
  · have hcompletes := (hb.commits h hh (.inl hold) hcommit).2 r hr
    simp only [completesCommit,and_eq_true,decide_eq_true_eq] at hcompletes
    rw [hcompletes.1.1.1.1.2,ha]
    rfl
  have hpos := hb.positive h hh hold hcommit r hr (counts_settles hcount)
  cases hp : r.preciseAmount with
  | none =>
    rw [minor,hp] at hpos
    exact absurd hpos (lt_irrefl 0)
  | some _ => rfl

end LedgerForge
