import LedgerForge.Lineage.Processing
import LedgerForge.Library.Sums

/-! # Resuming lineage work

What an undisturbed debit does to the shadow ledger depends on the ledger and on the mappings of the source only. When
funds are taken from one provider after the other and posted at once, a debit that has stopped between two allocations
goes on exactly where it has stopped.
-/

namespace LedgerForge.Lineage

open Attempt List Function ShadowLedger Option LineageMapping LineageState Draw

variable {d : Directory} {e : LineageEntry} {f : Faults} {s s' : LineageState} {l l' : ShadowLedger}

def checkedPost (d : Directory) (l : ShadowLedger) (t : ShadowTransaction) : Except String ShadowLedger :=
  if l.referenceExists t.reference then .error ("reference " ++ t.reference ++ " has already been used")
  else match d.refuses l t with
    | some message => .error message
    | none => .ok (l.post t)

theorem queueTransaction_none (t : ShadowTransaction) : queueTransaction d t ⟨s,none⟩ =
    match checkedPost d s.ledger t with
    | .ok l => (.ok (),⟨{ s with ledger := l },none⟩)
    | .error m => (.error m,⟨s,none⟩) := by
  rw [queueTransaction,call_bind,read_bind,checkedPost]
  split
  · rfl
  · cases d.refuses s.ledger t <;> rfl

theorem upsert_ledger (m : LineageMapping) : (s.upsertLineageMapping m).ledger = s.ledger := by
  unfold upsertLineageMapping
  split <;> rfl

theorem upsert_other {m : LineageMapping} {balanceID : String} (h : m.balanceID ≠ balanceID) :
    (s.upsertLineageMapping m).getLineageMappings balanceID = s.getLineageMappings balanceID := by
  unfold upsertLineageMapping getLineageMappings
  split
  · congr 1
    induction s.mappings with
    | nil => rfl
    | cons old mappings ih =>
      by_cases hold : old.balanceID = m.balanceID ∧ old.provider = m.provider
      · simp [hold,h,ih]
      · simp [hold,filter_cons,ih]
  · simp [filter_append,h]

/-- The balance that receives is not the source. -/
def Receiver.Apart (receiver : Receiver) (balanceID : String) : Prop :=
  ∀ r ∈ receiver, r.1.balanceID ≠ balanceID

def settleReceipt (d : Directory) (e : LineageEntry) (receiver : Receiver) (m : LineageMapping) (alloc : Allocation)
    (l : ShadowLedger) : Except String Unit × ShadowLedger :=
  match receiver with
  | none => (.ok (),l)
  | some (_,balances) =>
    match checkedPost d l (receive e m alloc (balances m.provider).1 (balances m.provider).2) with
    | .error message =>
      (.error ("failed to process destination lineage" ++ ": " ++ ("failed to queue receive transaction" ++ ": " ++ message)),l)
    | .ok l => (.ok (),l)

def settle (d : Directory) (e : LineageEntry) (mappings : List LineageMapping) (aggregate : String) (receiver : Receiver)
    (l : ShadowLedger) (alloc : Allocation) : Except String Unit × ShadowLedger :=
  if alloc.amount = 0 then (.ok (),l)
  else match findMappingByShadowID mappings alloc.balanceID with
    | none => (.ok (),l)
    | some m =>
      if l.referenceExists (releaseReference e.reference m.provider) then (.ok (),l)
      else match checkedPost d l (release e m alloc aggregate) with
        | .error message => (.error ("failed to queue release transaction" ++ ": " ++ message),l)
        | .ok l => settleReceipt d e receiver m alloc l

variable {mappings : List LineageMapping} {aggregate balanceID : String} {receiver : Receiver}

theorem processDestinationLineage_none (hr : receiver.Apart balanceID) (m : LineageMapping) (alloc : Allocation) : ∃ s',
      annotate "failed to process destination lineage" (processDestinationLineage d e f m alloc receiver) ⟨s,none⟩ =
        ((settleReceipt d e receiver m alloc s.ledger).1,⟨s',none⟩) ∧
      s'.ledger = (settleReceipt d e receiver m alloc s.ledger).2 ∧
      s'.getLineageMappings balanceID = s.getLineageMappings balanceID := by
  cases receiver with
  | none => exact ⟨s,rfl,rfl,rfl⟩
  | some r =>
    obtain ⟨destination,balances⟩ := r
    have hq := @queueTransaction_none d s (receive e m alloc (balances m.provider).1 (balances m.provider).2)
    simp only [settleReceipt]
    cases hrec : checkedPost d s.ledger (receive e m alloc (balances m.provider).1 (balances m.provider).2) with
    | error message =>
      rw [hrec] at hq
      exact ⟨s,annotate_of_error (bind_of_error (annotate_of_error hq)),rfl,rfl⟩
    | ok l =>
      rw [hrec] at hq
      refine ⟨_,annotate_of_ok (bind_of_ok (annotate_of_ok hq)),upsert_ledger _,?_⟩
      exact upsert_other (hr _ rfl)

theorem processAllocation_none (hr : receiver.Apart balanceID) (alloc : Allocation) : ∃ s',
      processAllocation d e f mappings aggregate receiver alloc ⟨s,none⟩ =
        ((settle d e mappings aggregate receiver s.ledger alloc).1,⟨s',none⟩) ∧
      s'.ledger = (settle d e mappings aggregate receiver s.ledger alloc).2 ∧
      s'.getLineageMappings balanceID = s.getLineageMappings balanceID := by
  by_cases hzero : alloc.amount = 0
  · exact ⟨s,by simp [processAllocation,settle,hzero],by simp [settle,hzero],rfl⟩
  cases hfind : findMappingByShadowID mappings alloc.balanceID with
  | none => exact ⟨s,by simp [processAllocation,settle,hzero,hfind],by simp [settle,hzero,hfind],rfl⟩
  | some m =>
    simp only [processAllocation,settle,hzero,hfind,if_false]
    rw [call_bind,read_bind]
    by_cases hexists : s.ledger.referenceExists (releaseReference e.reference m.provider)
    · exact ⟨s,by simp [hexists],by simp [hexists],rfl⟩
    simp only [hexists]
    have hq := @queueTransaction_none d s (release e m alloc aggregate)
    cases hrel : checkedPost d s.ledger (release e m alloc aggregate) with
    | error message =>
      rw [hrel] at hq
      exact ⟨s,bind_of_error (annotate_of_error hq),rfl,rfl⟩
    | ok l₁ =>
      rw [hrel] at hq
      obtain ⟨s',hrun,hledger,hmappings⟩ :=
        @processDestinationLineage_none d e f { s with ledger := l₁ } balanceID receiver hr m alloc
      exact ⟨s',(bind_of_ok (annotate_of_ok hq)).trans hrun,hledger,hmappings⟩

def settleAll (d : Directory) (e : LineageEntry) (mappings : List LineageMapping) (aggregate : String) (receiver : Receiver)
    (l : ShadowLedger) : List Allocation → Except String Unit × ShadowLedger
  | [] => (.ok (),l)
  | alloc :: allocations =>
    match settle d e mappings aggregate receiver l alloc with
    | (.ok _,l) => settleAll d e mappings aggregate receiver l allocations
    | (.error message,l) => (.error message,l)

theorem processAllocations_none (hr : receiver.Apart balanceID) (allocations : List Allocation) : ∃ s',
      processAllocations d e f mappings aggregate receiver allocations ⟨s,none⟩ =
        ((settleAll d e mappings aggregate receiver s.ledger allocations).1,⟨s',none⟩) ∧
      s'.ledger = (settleAll d e mappings aggregate receiver s.ledger allocations).2 ∧
      s'.getLineageMappings balanceID = s.getLineageMappings balanceID := by
  induction allocations generalizing s with
  | nil => exact ⟨s,rfl,rfl,rfl⟩
  | cons alloc allocations ih =>
    obtain ⟨s₁,hrun,hledger,hmappings⟩ := @processAllocation_none d e f s mappings aggregate balanceID receiver hr alloc
    rw [settleAll]
    generalize hsettle : settle d e mappings aggregate receiver s.ledger alloc = r at hrun hledger
    obtain ⟨result,l₁⟩ := r
    cases result with
    | error message => exact ⟨s₁,bind_of_error hrun,hledger,hmappings⟩
    | ok _ =>
      obtain ⟨s₂,hrun₂,hledger₂,hmappings₂⟩ := @ih s₁
      have hl : s₁.ledger = l₁ := hledger
      rw [hl] at hrun₂ hledger₂
      exact ⟨s₂,(bind_of_ok hrun).trans hrun₂,hledger₂,hmappings₂.trans hmappings⟩

def debitAllocations (e : LineageEntry) (source : TrackedBalance) (mappings : List LineageMapping) (l : ShadowLedger) :
    List Allocation :=
  if remainingDebitAmount e l mappings ≤ 0 then []
  else calculateAllocation (l.getLineageSources mappings) (remainingDebitAmount e l mappings) source.allocationStrategy

def sourceAggregate (d : Directory) (source : TrackedBalance) : Option String :=
  (d.identifier source.identityID).map fun identifier => d.balance ("@" ++ identifier ++ "_lineage") source.currency

def settleDebit (d : Directory) (e : LineageEntry) (source : TrackedBalance) (receiver : Receiver)
    (mappings : List LineageMapping) (l : ShadowLedger) : Except String Unit × ShadowLedger :=
  if mappings = [] ∨ remainingDebitAmount e l mappings ≤ 0 then (.ok (),l)
  else match sourceAggregate d source with
    | none => (.error "failed to get source identity",l)
    | some aggregate => settleAll d e mappings aggregate receiver l (debitAllocations e source mappings l)

theorem processLineageDebit_none {source : TrackedBalance} {destination : Option TrackedBalance} {now : ℤ}
    (hr : (prepareDestination d (.none now) destination).Apart source.balanceID) : ∃ s',
      processLineageDebit d e (.none now) source destination ⟨s,none⟩ =
        ((settleDebit d e source (prepareDestination d (.none now) destination)
          (s.getLineageMappings source.balanceID) s.ledger).1,⟨s',none⟩) ∧
      s'.ledger = (settleDebit d e source (prepareDestination d (.none now) destination)
        (s.getLineageMappings source.balanceID) s.ledger).2 := by
  rw [processLineageDebit,call_bind,read_bind]
  simp only [settleDebit]
  by_cases hempty : s.getLineageMappings source.balanceID = []
  · refine ⟨s,?_,?_⟩ <;> simp [hempty,Faults.none]
  simp only [hempty,if_false,false_or]
  by_cases hdone : remainingDebitAmount e s.ledger (s.getLineageMappings source.balanceID) ≤ 0
  · exact ⟨s,by simp [hdone],by simp [hdone]⟩
  simp only [hdone,if_false,call_bind,sourceAggregate,debitAllocations]
  cases d.identifier source.identityID with
  | none => exact ⟨s,rfl,rfl⟩
  | some identifier =>
    obtain ⟨s',hrun,hledger,-⟩ := processAllocations_none hr _
    exact ⟨s',hrun,hledger⟩

def capacity (l : ShadowLedger) (m : LineageMapping) : ℤ := ((l.source m).map LineageSource.balance).getD 0

/-- The mappings in the order in which their funds are taken. -/
def takingOrder (strategy : Strategy) (mappings : List LineageMapping) : List LineageMapping :=
  if strategy = .lifo then mappings.reverse else mappings

theorem source_balanceID {m : LineageMapping} {x : LineageSource} (h : l.source m = some x) :
    x.balanceID = m.shadowBalanceID ∧ x.createdAt = m.createdAt ∧ 0 < x.balance := by
  simp only [source,ite_none_right_eq_some,some.injEq] at h
  obtain ⟨⟨-,hpos⟩,rfl⟩ := h
  exact ⟨rfl,rfl,hpos⟩

theorem sequentialAllocation_eq_draw (mappings : List LineageMapping) (amount : ℤ) :
    sequentialAllocation (mappings.filterMap l.source) amount =
      (draw (capacity l) mappings amount).map fun x => ⟨x.1.shadowBalanceID,x.2⟩ := by
  induction mappings generalizing amount with
  | nil => rfl
  | cons m mappings ih =>
    cases hm : l.source m with
    | none =>
      have hcap : capacity l m = 0 := by simp [capacity,hm]
      rw [filterMap_cons_none hm,draw_skip hcap.le,ih]
    | some x =>
      obtain ⟨hid,-,hpos⟩ := source_balanceID hm
      have hcap : capacity l m = x.balance := by simp [capacity,hm]
      rw [filterMap_cons_some hm]
      by_cases hamount : amount ≤ 0
      · rw [draw_of_nonpos hamount]
        simp [sequentialAllocation,hamount]
      have htaken : (if amount ≤ x.balance then amount else x.balance) = min amount x.balance := (min_def _ _).symm
      have hnot : ¬ min amount x.balance ≤ 0 := by omega
      rw [draw_take (not_le.mp hamount) (hcap ▸ hpos),hcap]
      simp only [sequentialAllocation,hamount,if_false,htaken,hnot,map_cons,hid,ih]

theorem getLineageSources_sorted {r : ℤ → ℤ → Prop}
    (h : mappings.Pairwise fun a b => r a.createdAt b.createdAt) :
    (mappings.filterMap l.source).Pairwise fun a b => r a.createdAt b.createdAt := by
  rw [pairwise_filterMap]
  refine h.imp fun hab x hx y hy => ?_
  rw [(source_balanceID hx).2.1,(source_balanceID hy).2.1]
  exact hab

theorem orderedInsert_last {α : Type} {r : α → α → Prop} [DecidableRel r] {a : α} {l : List α} (h : ∀ b ∈ l, ¬ r a b) :
    l.orderedInsert r a = l ++ [a] := by
  induction l with
  | nil => rfl
  | cons b l ih =>
    rw [forall_mem_cons] at h
    rw [orderedInsert_cons,if_neg h.1,ih h.2]
    rfl

theorem insertionSort_falling {sources : List LineageSource} (h : sources.Pairwise fun a b => a.createdAt < b.createdAt) :
    sources.insertionSort (fun a b => b.createdAt ≤ a.createdAt) = sources.reverse := by
  induction sources with
  | nil => rfl
  | cons x sources ih =>
    obtain ⟨hx,h⟩ := pairwise_cons.mp h
    rw [insertionSort_cons,ih h,reverse_cons]
    refine orderedInsert_last fun b hb => ?_
    have := hx b (mem_reverse.mp hb)
    omega

theorem debitAllocations_eq {source : TrackedBalance}
    (hsorted : mappings.Pairwise fun a b => a.createdAt < b.createdAt) (hs : source.allocationStrategy ≠ .proportional) :
    debitAllocations e source mappings l = (draw (capacity l) (takingOrder source.allocationStrategy mappings)
      (remainingDebitAmount e l mappings)).map fun x => ⟨x.1.shadowBalanceID,x.2⟩ := by
  unfold debitAllocations
  split
  · next hdone => rw [draw_of_nonpos hdone]; rfl
  rw [← sequentialAllocation_eq_draw]
  cases hst : source.allocationStrategy with
  | proportional => exact absurd hst hs
  | fifo =>
    have hle := getLineageSources_sorted (l := l) (hsorted.imp le_of_lt)
    simp only [calculateAllocation,takingOrder,getLineageSources]
    rw [hle.insertionSort_eq]
    rfl
  | lifo =>
    have hlt := getLineageSources_sorted (l := l) hsorted
    simp only [calculateAllocation,takingOrder,getLineageSources,if_true]
    rw [filterMap_reverse,insertionSort_falling hlt]

theorem releaseReference_inj {parentRef p q : String} (h : releaseReference parentRef p = releaseReference parentRef q) :
    p = q := by
  rw [releaseReference,releaseReference,String.append_right_inj] at h
  exact h

theorem receive_ne_release (parentRef p q : String) : receiveReference parentRef p ≠ releaseReference parentRef q := by
  intro h
  have hl := congrArg String.toList h
  simp [receiveReference,releaseReference] at hl

theorem findReference_post (t : ShadowTransaction) (reference : String) : (l.post t).findReference reference =
    (l.findReference reference).or (if t.reference = reference then some t else none) := by
  simp only [findReference,post,List.find?_append,List.find?_singleton,decide_eq_true_eq]

theorem referenceExists_post (t : ShadowTransaction) (reference : String) : (l.post t).referenceExists reference =
    (l.referenceExists reference || decide (t.reference = reference)) := by
  simp [referenceExists,post]

theorem findReference_eq_none {reference : String} (h : l.referenceExists reference = false) :
    l.findReference reference = none := by
  simpa [referenceExists,findReference] using h

variable {t : ShadowTransaction}

theorem capacity_post_other {m : LineageMapping} (hs : t.source ≠ m.shadowBalanceID)
    (hd : t.destination ≠ m.shadowBalanceID) : capacity (l.post t) m = capacity l m := by
  have hdebit : (l.post t).debitBalance m.shadowBalanceID = l.debitBalance m.shadowBalanceID := by
    simp only [post]
    split
    · rfl
    · rw [update_of_ne hs.symm]
  have hcredit : (l.post t).creditBalance m.shadowBalanceID = l.creditBalance m.shadowBalanceID := by
    simp only [post]
    split
    · rfl
    · rw [update_of_ne hd.symm]
  rw [capacity,capacity,source,source,hdebit,hcredit]

theorem capacity_eq (m : LineageMapping) (h : 0 < capacity l m) : 0 < l.debitBalance m.shadowBalanceID ∧
    capacity l m = l.debitBalance m.shadowBalanceID-l.creditBalance m.shadowBalanceID := by
  unfold capacity source at h ⊢
  simp only at h ⊢
  split at h
  · next hpos =>
    rw [if_pos hpos]
    exact ⟨hpos.1,rfl⟩
  · simp at h

theorem capacity_post_release {m : LineageMapping} (hp : t.inflight = false)
    (hs : t.source ≠ m.shadowBalanceID) (hd : t.destination = m.shadowBalanceID) (hpos : 0 < t.amount)
    (hle : t.amount ≤ capacity l m) : capacity (l.post t) m = capacity l m-t.amount := by
  obtain ⟨hdebit,hcap⟩ := capacity_eq m (hpos.trans_le hle)
  have hdebit' : (l.post t).debitBalance m.shadowBalanceID = l.debitBalance m.shadowBalanceID := by
    simp only [post,hp,Bool.false_eq_true,if_false]
    rw [update_of_ne hs.symm]
  have hcredit' : (l.post t).creditBalance m.shadowBalanceID = l.creditBalance m.shadowBalanceID+t.amount := by
    simp only [post,hp,Bool.false_eq_true,if_false,hd]
    rw [update_self]
  rw [capacity,source]
  split
  · simp only [map_some,getD_some]
    omega
  next hnone =>
  simp only [map_none,getD_none]
  omega

/-- Funds are posted at once and taken from one provider after the other, and the balances that release and receive them
are apart from the shadow balances of the source. -/
structure Separable (e : LineageEntry) (source : TrackedBalance) (mappings : List LineageMapping) (aggregate : String)
    (receiver : Receiver) : Prop where
  posted : e.inflight = false
  sequential : source.allocationStrategy ≠ .proportional
  sorted : mappings.Pairwise fun a b => a.createdAt < b.createdAt
  shadows : (mappings.map shadowBalanceID).Nodup
  providers : (mappings.map provider).Nodup
  aggregate_apart : ∀ m ∈ mappings, aggregate ≠ m.shadowBalanceID
  receiver_apart : ∀ r ∈ receiver, ∀ m ∈ mappings, ∀ m' ∈ mappings,
    (r.2 m.provider).1 ≠ m'.shadowBalanceID ∧ (r.2 m.provider).2 ≠ m'.shadowBalanceID

/-- A provider whose release is stored has nothing left to take, unless the debit is done. -/
def Open (e : LineageEntry) (mappings : List LineageMapping) (l : ShadowLedger) : Prop :=
  ∀ m ∈ mappings, l.referenceExists (releaseReference e.reference m.provider) →
    capacity l m ≤ 0 ∨ remainingDebitAmount e l mappings ≤ 0

variable {source : TrackedBalance} {m : LineageMapping} {a : ℤ}

theorem Separable.find (h : Separable e source mappings aggregate receiver) (hm : m ∈ mappings) :
    findMappingByShadowID mappings m.shadowBalanceID = some m := Keyed.find_of_mem h.shadows hm

theorem checkedPost_ok (h : checkedPost d l t = .ok l') :
    l' = l.post t ∧ l.referenceExists t.reference = false := by
  unfold checkedPost at h
  split at h
  · cases h
  next hnew =>
  split at h
  · cases h
  · cases h
    exact ⟨rfl,by simpa using hnew⟩

theorem Separable.settle_ok (h : Separable e source mappings aggregate receiver) (hm : m ∈ mappings) (ha : a ≠ 0)
    (hnew : l.referenceExists (releaseReference e.reference m.provider) = false)
    (hs : settle d e mappings aggregate receiver l ⟨m.shadowBalanceID,a⟩ = (.ok (),l')) :
    l' = l.post (release e m ⟨m.shadowBalanceID,a⟩ aggregate) ∨
      ∃ t, l' = (l.post (release e m ⟨m.shadowBalanceID,a⟩ aggregate)).post t ∧
        t.reference = receiveReference e.reference m.provider ∧
        ∀ m' ∈ mappings, t.source ≠ m'.shadowBalanceID ∧ t.destination ≠ m'.shadowBalanceID := by
  simp only [settle,ha,if_false,h.find hm,hnew,Bool.false_eq_true] at hs
  cases hrel : checkedPost d l (release e m ⟨m.shadowBalanceID,a⟩ aggregate) with
  | error message => simp [hrel] at hs
  | ok l₁ =>
    obtain ⟨rfl,-⟩ := checkedPost_ok hrel
    rw [hrel] at hs
    cases receiver with
    | none => exact .inl (Prod.mk.inj hs).2.symm
    | some r =>
      simp only [settleReceipt] at hs
      split at hs
      · cases hs
      next l₂ hrec =>
      obtain ⟨rfl,-⟩ := checkedPost_ok hrec
      exact .inr ⟨_,(Prod.mk.inj hs).2.symm,rfl,fun m' hm' => h.receiver_apart _ rfl m hm m' hm'⟩

theorem remaining_post_release (hn : (mappings.map provider).Nodup) (hm : m ∈ mappings)
    (ht : t.reference = releaseReference e.reference m.provider) (hnew : l.referenceExists t.reference = false) :
    remainingDebitAmount e (l.post t) mappings = remainingDebitAmount e l mappings-t.amount := by
  have hterm : ∀ m' ∈ mappings, (((l.post t).findReference (releaseReference e.reference m'.provider)).map
      ShadowTransaction.amount).getD 0 = ((l.findReference (releaseReference e.reference m'.provider)).map
      ShadowTransaction.amount).getD 0+(if m' = m then t.amount else 0) := by
    intro m' hm'
    rw [findReference_post]
    by_cases he : m' = m
    · subst he
      rw [ht] at hnew
      simp [findReference_eq_none hnew,ht]
    have hne : t.reference ≠ releaseReference e.reference m'.provider := by
      rw [ht]
      intro hr
      exact he (inj_on_of_nodup_map hn hm' hm (releaseReference_inj hr).symm)
    simp [hne,he]
  rw [remainingDebitAmount,remainingDebitAmount,map_congr_left hterm,sum_map_add,
    Sums.sum_single hn.of_map hm (· = m) (fun _ _ => Iff.rfl) (fun _ => t.amount)]
  omega

theorem remaining_post_other (ht : ∀ m ∈ mappings, t.reference ≠ releaseReference e.reference m.provider) :
    remainingDebitAmount e (l.post t) mappings = remainingDebitAmount e l mappings := by
  rw [remainingDebitAmount]
  congr 2
  refine map_congr_left fun m hm => ?_
  rw [findReference_post,if_neg (ht m hm),or_none]

/-- After an allocation its provider has that much less, the debit as well, and nothing else changes. -/
theorem Separable.settled (h : Separable e source mappings aggregate receiver) (hm : m ∈ mappings) (hpos : 0 < a)
    (hle : a ≤ capacity l m) (hnew : l.referenceExists (releaseReference e.reference m.provider) = false)
    (hs : settle d e mappings aggregate receiver l ⟨m.shadowBalanceID,a⟩ = (.ok (),l')) :
    (∀ m' ∈ mappings, capacity l' m' = update (capacity l) m (capacity l m-a) m') ∧
      remainingDebitAmount e l' mappings = remainingDebitAmount e l mappings-a ∧
      ∀ m' ∈ mappings, m' ≠ m → l'.referenceExists (releaseReference e.reference m'.provider) =
        l.referenceExists (releaseReference e.reference m'.provider) := by
  have hcap : ∀ m' ∈ mappings, capacity (l.post (release e m ⟨m.shadowBalanceID,a⟩ aggregate)) m' =
      update (capacity l) m (capacity l m-a) m' := by
    intro m' hm'
    by_cases he : m' = m
    · subst he
      rw [update_self]
      exact capacity_post_release h.posted (h.aggregate_apart m' hm') rfl hpos hle
    · rw [update_of_ne he]
      refine capacity_post_other (h.aggregate_apart m' hm') fun hd => ?_
      exact he (inj_on_of_nodup_map h.shadows hm' hm hd.symm)
  have hremaining : remainingDebitAmount e (l.post (release e m ⟨m.shadowBalanceID,a⟩ aggregate)) mappings =
      remainingDebitAmount e l mappings-a := remaining_post_release h.providers hm rfl hnew
  have hexists : ∀ m' ∈ mappings, m' ≠ m →
      (l.post (release e m ⟨m.shadowBalanceID,a⟩ aggregate)).referenceExists (releaseReference e.reference m'.provider) =
        l.referenceExists (releaseReference e.reference m'.provider) := by
    intro m' hm' hne
    have hr : releaseReference e.reference m.provider ≠ releaseReference e.reference m'.provider := fun hr =>
      hne (inj_on_of_nodup_map h.providers hm' hm (releaseReference_inj hr).symm)
    rw [referenceExists_post]
    simp [release,hr]
  rcases h.settle_ok hm hpos.ne' hnew hs with rfl | ⟨t,rfl,href,hapart⟩
  · exact ⟨hcap,hremaining,hexists⟩
  have hother : ∀ m' ∈ mappings, t.reference ≠ releaseReference e.reference m'.provider :=
    fun m' _ => href ▸ receive_ne_release _ _ _
  refine ⟨?_,?_,?_⟩
  · intro m' hm'
    rw [capacity_post_other (hapart m' hm').1 (hapart m' hm').2]
    exact hcap m' hm'
  · rw [remaining_post_other hother,hremaining]
  · intro m' hm' hne
    rw [referenceExists_post,hexists m' hm' hne]
    simp [hother m' hm']

theorem Separable.order_nodup (h : Separable e source mappings aggregate receiver) :
    (takingOrder source.allocationStrategy mappings).Nodup := by
  unfold takingOrder
  split
  · exact nodup_reverse.mpr h.shadows.of_map
  · exact h.shadows.of_map

theorem mem_takingOrder {strategy : Strategy} : m ∈ takingOrder strategy mappings ↔ m ∈ mappings := by
  unfold takingOrder
  split <;> simp

theorem Separable.step (h : Separable e source mappings aggregate receiver) (hopen : Open e mappings l) {alloc : Allocation}
    {rest : List Allocation} (hd : debitAllocations e source mappings l = alloc :: rest)
    (hs : settle d e mappings aggregate receiver l alloc = (.ok (),l')) :
    Open e mappings l' ∧ debitAllocations e source mappings l' = rest := by
  rw [debitAllocations_eq h.sorted h.sequential] at hd ⊢
  obtain ⟨⟨m,a⟩,others,hdraw,rfl,rfl⟩ := map_eq_cons_iff.mp hd
  obtain ⟨hrest,hm,hpos,ha⟩ := draw_resume h.order_nodup hdraw
  rw [mem_takingOrder] at hm
  have hnew : l.referenceExists (releaseReference e.reference m.provider) = false := by
    by_contra hexists
    have := hopen m hm (by simpa using hexists)
    omega
  obtain ⟨hcap,hremaining,hexists⟩ := h.settled hm hpos (by omega) hnew hs
  refine ⟨fun m' hm' hstored => ?_,?_⟩
  · by_cases he : m' = m
    · -- its provider is used up, or the debit is done
      subst he
      rw [hcap m' hm',update_self]
      omega
    · rw [hcap m' hm',update_of_ne he]
      rw [hexists m' hm' he] at hstored
      have := hopen m' hm' hstored
      omega
  · rw [hremaining,draw_congr fun m' hm' => hcap m' (mem_takingOrder.mp hm'),hrest]

theorem Separable.run (h : Separable e source mappings aggregate receiver) {n : ℕ} (hopen : Open e mappings l)
    (hs : settleAll d e mappings aggregate receiver l ((debitAllocations e source mappings l).take n) = (.ok (),l')) :
    Open e mappings l' ∧ settleAll d e mappings aggregate receiver l' (debitAllocations e source mappings l') =
      settleAll d e mappings aggregate receiver l (debitAllocations e source mappings l) := by
  induction n generalizing l with
  | zero =>
    cases hs
    exact ⟨hopen,rfl⟩
  | succ n ih =>
    cases hd : debitAllocations e source mappings l with
    | nil =>
      rw [hd] at hs
      cases hs
      exact ⟨hopen,by rw [hd]⟩
    | cons alloc rest =>
      rw [hd,take_succ_cons,settleAll] at hs
      rw [settleAll]
      split at hs
      · next l₁ hsettle =>
        obtain ⟨hopen₁,hrest⟩ := h.step hopen hd hsettle
        rw [← hrest]
        exact ih hopen₁ (hrest.symm ▸ hs)
      · cases hs

theorem settleDebit_eq (ha : sourceAggregate d source = some aggregate) : settleDebit d e source receiver mappings l =
    settleAll d e mappings aggregate receiver l (debitAllocations e source mappings l) := by
  unfold settleDebit
  by_cases hdone : remainingDebitAmount e l mappings ≤ 0
  · simp [debitAllocations,hdone,settleAll]
  by_cases hempty : mappings = []
  · have hnone : debitAllocations e source [] l = [] := by
      unfold debitAllocations
      split
      · rfl
      · cases source.allocationStrategy <;> simp [calculateAllocation,getLineageSources,sequentialAllocation,
          proportionalAllocation]
    simp [hempty,hnone,settleAll]
  · simp [hempty,hdone,ha]

end LedgerForge.Lineage
