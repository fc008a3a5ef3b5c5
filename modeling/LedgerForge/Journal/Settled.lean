import LedgerForge.Journal.Bounds
import LedgerForge.Journal.Holds
import LedgerForge.Library.Sums

/-! # What is consumed of a hold

The trigger counts the direct children of a hold, among them its queued commits until one is rejected. The journal
counts what has been settled, through queued commits too.
-/

namespace LedgerForge

open Sums List

/-- A queued commit that is neither rejected nor completed. -/
def Row.IsOpenCommit (rows : List Row) (q : Row) : Prop :=
  q.IsQueuedCommit ∧ ∀ c ∈ rows, c.parentTransaction = q.transactionID → c.status ≠ .rejected ∧ c.status ≠ .applied
deriving Decidable

def openCommits (rows : List Row) (h : Row) : ℤ :=
  (rows.map fun q => if q.IsOpenCommit rows ∧ q.parentTransaction = h.transactionID then q.minor else 0).sum

variable {rows : List Row}

theorem kids_sum (id : String) (f : Row → ℤ) :
    ((kids rows id).map f).sum = (rows.map fun r => if r.parentTransaction = id then f r else 0).sum :=
  sum_filter rows (fun r => r.parentTransaction = id) f

theorem settledChildren_eq (id : String) :
    settledChildren rows id = (rows.map fun r => if r.IsSettled ∧ r.parentTransaction = id then r.minor else 0).sum := by
  rw [settledChildren,sum_filter,kids_sum]
  refine congrArg List.sum (map_congr_left fun r _ => ?_)
  by_cases hs : r.IsSettled <;> by_cases hp : r.parentTransaction = id <;> simp [hs,hp]

/-- The settlements of a hold are its own children and the children of its queued commits. -/
theorem settledAmount_eq (hn : (rows.map Row.transactionID).Nodup) {h : Row} (hh : h ∈ rows) (hold : h.status = .inflight) :
    settledAmount rows h = settledChildren rows h.transactionID+
      ((kids rows h.transactionID).map fun q => if q.IsQueuedCommit then settledChildren rows q.transactionID else 0).sum := by
  have hinner : ∀ q : Row, (if q.IsQueuedCommit then settledChildren rows q.transactionID else 0) =
      (rows.map fun r => if q.IsQueuedCommit ∧ r.IsSettled ∧ r.parentTransaction = q.transactionID then r.minor else 0).sum := by
    intro q
    by_cases hq : q.IsQueuedCommit
    · simp only [hq,if_true,true_and,settledChildren_eq]
    · simp [hq]
  simp only [hinner]
  rw [settledChildren_eq,sum_comm,← sum_map_add]
  refine congrArg List.sum (map_congr_left fun r hr => ?_)
  by_cases hs : r.IsSettled
  · by_cases hdirect : r.parentTransaction = h.transactionID
    · rw [if_pos ⟨hs,.inl hdirect⟩,if_pos ⟨hs,hdirect⟩,sum_none,add_zero]
      rintro q hq ⟨hcommit,-,hvia⟩
      obtain rfl := inj_on_of_nodup_map hn (mem_kids.mp hq).1 hh (hvia.symm.trans hdirect)
      rw [hcommit.1] at hold
      cases hold
    · have hnot : ¬ (r.IsSettled ∧ r.parentTransaction = h.transactionID) := fun hc => hdirect hc.2
      rw [if_neg hnot,zero_add]
      by_cases hvia : ∃ q ∈ rows, q.IsQueuedCommit ∧ q.parentTransaction = h.transactionID ∧ r.parentTransaction = q.transactionID
      · obtain ⟨q,hq,hcommit,hparent,hchild⟩ := hvia
        rw [if_pos ⟨hs,.inr ⟨q,hq,hcommit,hparent,hchild⟩⟩]
        refine (sum_single ?_ (mem_kids.mpr ⟨hq,hparent⟩) _ (fun y hy => ?_) fun _ => r.minor).symm
        · exact (List.Nodup.of_map _ hn).filter _
        · refine ⟨fun hc => ?_,fun he => he ▸ ⟨hcommit,hs,hchild⟩⟩
          exact inj_on_of_nodup_map hn (mem_kids.mp hy).1 hq (hc.2.2.symm.trans hchild)
      · rw [if_neg fun hc => hc.2.elim hdirect hvia,sum_none]
        rintro q hq ⟨hcommit,-,hchild⟩
        exact hvia ⟨q,(mem_kids.mp hq).1,hcommit,(mem_kids.mp hq).2,hchild⟩
  · rw [if_neg fun hc => hs hc.1,if_neg fun hc => hs hc.1,sum_none _ fun q _ hc => hs hc.2.1]
    rfl

theorem commit_split (hb : Bounded rows) {q : Row} (hq : q ∈ rows) (hcommit : q.IsQueuedCommit) :
    (if hasRejectedChild rows q.transactionID = false then q.minor else 0) =
      settledChildren rows q.transactionID+if q.IsOpenCommit rows then q.minor else 0 := by
  obtain ⟨hlength,hcompletes⟩ := hb.commits q hq (.inr hcommit) hcommit.2
  have hrejected : hasRejectedChild rows q.transactionID = false ↔ ∀ c ∈ kids rows q.transactionID, c.status ≠ .rejected := by
    simp [hasRejectedChild,mem_kids]
  have hopen : q.IsOpenCommit rows ↔ ∀ c ∈ kids rows q.transactionID, c.status ≠ .rejected ∧ c.status ≠ .applied := by
    simp only [Row.IsOpenCommit,hcommit,true_and,mem_kids,and_imp]
  rw [if_congr hrejected rfl rfl,if_congr hopen rfl rfl,settledChildren]
  rcases hk : kids rows q.transactionID with _ | ⟨c,_ | ⟨y,rest⟩⟩
  · simp
  · have hc := hcompletes c (hk ▸ mem_singleton_self c)
    simp only [completesCommit,Bool.and_eq_true,Bool.or_eq_true,decide_eq_true_eq] at hc
    have hminor : c.minor = q.minor := congrArg (Option.getD · 0) hc.1.1.1.1.2
    rcases hc.1.1.1.1.1 with hs | hs <;> simp [hs,Row.IsSettled,hminor]
  · rw [hk] at hlength
    simp at hlength

theorem consumed_eq_settled (hb : Bounded rows) (hn : (rows.map Row.transactionID).Nodup) {h : Row} (hh : h ∈ rows)
    (hold : h.status = .inflight) : consumed rows h.transactionID = settledAmount rows h+openCommits rows h := by
  have hopen : openCommits rows h =
      ((kids rows h.transactionID).map fun q => if q.IsOpenCommit rows then q.minor else 0).sum := by
    rw [kids_sum]
    refine congrArg List.sum (map_congr_left fun q _ => ?_)
    by_cases hp : q.parentTransaction = h.transactionID <;> simp [hp]
  have hpending : pendingCommits rows h.transactionID = ((kids rows h.transactionID).map fun q =>
      if q.IsQueuedCommit ∧ hasRejectedChild rows q.transactionID = false then q.minor else 0).sum :=
    sum_filter _ _ _
  rw [consumed_eq_add,settledAmount_eq hn hh hold,hopen,hpending,add_assoc,← sum_map_add]
  congr 2
  refine map_congr_left fun q hq => ?_
  by_cases hcommit : q.IsQueuedCommit
  · simp only [hcommit,true_and,if_true]
    exact commit_split hb (mem_kids.mp hq).1 hcommit
  · have hclosed : ¬ q.IsOpenCommit rows := fun hc => hcommit hc.1
    simp [hcommit,hclosed]

def VoidsFinal (rows : List Row) : Prop :=
  ∀ h ∈ rows, h.status = .inflight → ∀ v ∈ rows, v.status = .void → v.parentTransaction = h.transactionID →
    consumed rows h.transactionID = h.minor

section Final

variable {r : Row}

theorem consumed_append {id : String} (h : ∀ t ∈ kids rows id, counts (rows ++ [r]) t = counts rows t) :
    consumed (rows ++ [r]) id = consumed rows id+
      if r.parentTransaction = id ∧ counts (rows ++ [r]) r = true then r.minor else 0 := by
  have hold : ((kids rows id).map fun t => if counts (rows ++ [r]) t then t.minor else 0).sum = consumed rows id := by
    rw [consumed_eq]
    refine congrArg List.sum (map_congr_left fun t ht => ?_)
    rw [h t ht]
  rw [consumed_eq,kids_append,map_append,sum_append,hold,kids_singleton]
  by_cases hp : r.parentTransaction = id <;> simp [hp]

theorem counts_append {t : Row} (h : r.status = .rejected → t.IsQueuedCommit → r.parentTransaction ≠ t.transactionID) :
    counts (rows ++ [r]) t = counts rows t := by
  by_cases hq : t.IsQueuedCommit
  · have hsame : hasRejectedChild (rows ++ [r]) t.transactionID = hasRejectedChild rows t.transactionID := by
      by_cases hs : r.status = .rejected
      · simp [hasRejectedChild,h hs hq]
      · simp [hasRejectedChild,hs]
    rw [counts,counts,hsame]
  · have hnot : (decide (t.status = .queued) && decide (t.queueAction = .commit)) = false := by
      rw [Bool.eq_false_iff,Ne,Bool.and_eq_true,decide_eq_true_eq,decide_eq_true_eq]
      exact hq
    rw [counts,counts,hnot,Bool.false_and,Bool.false_and]

theorem VoidsFinal.append (hf : VoidsFinal rows) (hb : Bounded (rows ++ [r])) (hj : Journal rows) (hu : Unused rows r)
    (ho : Origin rows r) (ha : ∀ h ∈ rows, h.status = .inflight → ∃ a, h.preciseAmount = some a)
    (hr : r.status = .rejected → ∀ q ∈ rows, q.IsQueuedCommit → r.parentTransaction = q.transactionID →
      ∀ v ∈ rows, v.status = .void → v.parentTransaction ≠ q.parentTransaction) : VoidsFinal (rows ++ [r]) := by
  intro h hh hold v hv hvoid hparent
  rcases mem_append.mp hh with hmem | hnew
  · rcases mem_append.mp hv with hv | hv
    · -- the hold was final already: no rejection gives anything back, and the bound keeps it there
      obtain ⟨a,ha⟩ := ha h hmem hold
      have hsame : ∀ t ∈ kids rows h.transactionID, counts (rows ++ [r]) t = counts rows t := by
        intro t ht
        apply counts_append
        intro hs hq he
        exact hr hs t (mem_kids.mp ht).1 hq he v hv hvoid (hparent.trans (mem_kids.mp ht).2.symm)
      have hbound := hb.bound (mem_append_left _ hmem) hold ha
      rw [consumed_append hsame,hf h hmem hold v hv hvoid hparent,minor_of_some ha] at hbound ⊢
      split at hbound
      · rename_i hc
        have haction := hj.inflight_action hmem (.inl hold)
        have hpos := hb.positive h (mem_append_left _ hmem) hold (by rw [haction]; decide) r
          (mem_kids.mpr ⟨mem_append_right _ (mem_singleton_self r),hc.1⟩) (counts_settles hc.2)
        omega
      · rename_i hc
        rw [if_neg hc,add_zero]
    · -- the new row is the void, which takes the whole remainder
      obtain rfl := mem_singleton.mp hv
      have hsame : ∀ t ∈ kids rows h.transactionID, counts (rows ++ [v]) t = counts rows t := by
        intro t _
        apply counts_append
        intro hs
        rw [hvoid] at hs
        cases hs
      have hcount : counts (rows ++ [v]) v = true := by simp [counts,hvoid]
      rw [consumed_append hsame,if_pos ⟨hparent,hcount⟩]
      rcases ho.void hvoid with ⟨p,hp,hchild,-,-,hwhole⟩ | ⟨i,hi,hchild,hqueued⟩
      · obtain rfl := hj.eq_of_id hmem hp (hparent.symm.trans hchild.parent)
        exact hwhole
      obtain rfl := hj.eq_of_id hmem hi (hparent.symm.trans hchild.parent)
      rw [hqueued] at hold
      cases hold
  · obtain rfl := mem_singleton.mp hnew
    rcases mem_append.mp hv with hv | hv
    · exact absurd hparent (hu.parent v hv)
    · exact absurd (mem_singleton.mp hv ▸ hparent) hu.own

end Final

end LedgerForge
