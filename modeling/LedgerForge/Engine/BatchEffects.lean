import LedgerForge.Engine.Effects

/-! # What a coalesced batch leaves in the database

All transactions of a batch work on one copy of each balance, so the balances written at the end have moved by the sum
of the finalised transactions.
-/

namespace LedgerForge

open VersionedStore List Transaction Balance Keyed Database

theorem replaceBalance_ids (bs : List Balance) (x : Balance) :
    (replaceBalance bs x).map balanceID = bs.map balanceID := by
  rw [replaceBalance,map_map]
  refine map_congr_left fun c _ => ?_
  simp only [Function.comp_apply]
  split
  · rename_i h
    exact h.symm
  · rfl

theorem find_replaceBalance {bs : List Balance} {x b : Balance} {id : String}
    (h : find balanceID bs id = some b) :
    find balanceID (replaceBalance bs x) id = some (if id = x.balanceID then x else b) := by
  have hkey : ∀ c : Balance, (if c.balanceID = x.balanceID then x else c).balanceID = c.balanceID := by
    intro c
    split
    · rename_i h
      exact h.symm
    · rfl
  rw [replaceBalance,find_map _ hkey,h,Option.map_some,find_key h]

def Transaction.gain (t : Transaction) (a : ℤ) (id : String) : Counters :=
  (if t.source = id then t.movement.debitSide a else 0)+(if t.destination = id then t.movement.creditSide a else 0)

variable {t : Transaction}

theorem updateSharedBalance_moved {t' : Transaction} {b b' : Balance} (hv : t.status ≠ .void) (hc : t.status ≠ .commit)
    (h : t.updateSharedBalance b = (none,t',b')) : ∃ a, 0 < a ∧ (∀ p, t.preciseAmount = some p → p = a) ∧
      t.validateMonetaryFields = .ok () ∧ t' = t.materialise a ∧ canProcessTransaction (t.materialise a) b = .ok () ∧
      b.Moved b' (t.movement.debitSide a+t.movement.creditSide a) := by
  rw [updateSharedBalance] at h
  split at h
  · simp at h
  rename_i l hl
  have houtcome := (Legs.mk t b b).updateBalances_outcome hv hc
  rw [hl] at houtcome
  cases houtcome with
  | applied happlied =>
    rename_i a
    obtain ⟨rfl,rfl⟩ := h
    have htransaction : l.transaction = t.materialise a := by
      rw [happlied.transaction,if_neg hv]
    have hmove : t.movement = if l.transaction.inflight then Movement.hold else Movement.plain := by
      rw [htransaction,movement]
      split <;> first | contradiction | rfl
    refine ⟨a,happlied.positive,happlied.kept,happlied.valid hv,htransaction,happlied.funded hv hc,
      happlied.source.trans ?_⟩
    rw [happlied.amount]
    rw [hmove]
    exact moved_addCredit _ _ _

/-- One transaction of a batch moves the shared copies of the balances it names. -/
theorem applyToShared_moved {bs bs' : List Balance} {t' : Transaction} {source destination : Balance}
    (hv : t.status ≠ .void) (hc : t.status ≠ .commit)
    (hs : find balanceID bs t.source = some source)
    (hd : find balanceID bs t.destination = some destination)
    (h : applyToShared bs t source destination = .ok (t',bs')) : ∃ a, 0 < a ∧
      (∀ p, t.preciseAmount = some p → p = a) ∧ t.validateMonetaryFields = .ok () ∧ t' = t.materialise a ∧
      canProcessTransaction (t.materialise a) source = .ok () ∧ bs'.map balanceID = bs.map balanceID ∧
      ∀ id b, find balanceID bs id = some b →
        ∃ b', find balanceID bs' id = some b' ∧ b.Moved b' (t.gain a id) := by
  have hsource := find_key hs
  have hdestination := find_key hd
  rw [applyToShared] at h
  split at h
  · rename_i hsame
    split at h
    · cases h
    rename_i moved hmoved
    cases h
    obtain ⟨a,hpos,hkept,hvalid,ht',hfunded,hmove⟩ := updateSharedBalance_moved hv hc hmoved
    refine ⟨a,hpos,hkept,hvalid,ht',hfunded,replaceBalance_ids _ _,fun id b hb => ⟨_,find_replaceBalance hb,?_⟩⟩
    have hid : moved.balanceID = t.source := hmove.balanceID.trans hsource
    have heq : t.source = t.destination := by rw [← hsource,← hdestination,hsame]
    rw [gain,← heq,hid]
    by_cases hi : id = t.source
    · rw [if_pos hi,if_pos hi.symm,if_pos hi.symm]
      rw [hi,hs] at hb
      cases hb
      exact hmove
    · rw [if_neg hi,if_neg (Ne.symm hi),if_neg (Ne.symm hi)]
      exact .refl b
  · rename_i hdistinct
    split at h
    · cases h
    rename_i l hl
    cases h
    obtain ⟨a,happlied⟩ := Legs.applied_of_none hl
    have hne : t.source ≠ t.destination := fun he => hdistinct (by rw [hsource,hdestination,he])
    have hsid : l.source.balanceID = t.source := happlied.source.balanceID.trans hsource
    have hdid : l.destination.balanceID = t.destination := happlied.destination.balanceID.trans hdestination
    refine ⟨a,happlied.positive,happlied.kept,happlied.valid hv,?_,happlied.funded hv hc,?_,
      fun id b hb => ⟨_,find_replaceBalance (find_replaceBalance hb),?_⟩⟩
    · rw [happlied.transaction,if_neg hv]
    · rw [replaceBalance_ids,replaceBalance_ids]
    · rw [gain,hsid,hdid]
      by_cases hi : id = t.source
      · rw [hi,hs] at hb
        cases hb
        rw [hi,if_neg hne,if_pos rfl,if_pos rfl,if_neg hne.symm,add_zero]
        exact happlied.source
      by_cases hj : id = t.destination
      · rw [hj,hd] at hb
        cases hb
        rw [hj,if_pos rfl,if_neg hne,if_pos rfl,zero_add]
        exact happlied.destination
      · rw [if_neg hj,if_neg hi,if_neg (Ne.symm hi),if_neg (Ne.symm hj)]
        exact .refl b

theorem canCoalesceQueuedTransaction_ok (h : canCoalesceQueuedTransaction t = .ok ()) :
    t.status = .queued ∧ t.queueAction = .unset := by
  rw [canCoalesceQueuedTransaction,canCoalesceQueuedOriginal] at h
  split_ifs at h with _ _ haction hstatus
  exact ⟨not_not.mp hstatus,not_not.mp haction⟩

theorem buildTransactionExecutionWork_finalised (hstatus : t.status = .queued)
    (source destination : Balance) {a : ℤ} (ha : a ≠ 0) :
    ((t.updateTransactionDetails source destination).materialise a).buildTransactionExecutionWork source destination =
      (t.executed source destination a,false) := by
  rw [buildTransactionExecutionWork,if_neg (by
    simp only [updateTransactionDetails,materialise,convertPreciseToDecimal,
      Option.some.injEq]
    exact ha)]
  simp only [executed,hstatus]
  cases hi : t.inflight <;>
    simp [updateTransactionDetails,materialise,convertPreciseToDecimal,hi,hstatus,
      applicableStatus,clearTerminalInflightMetadata,majorUnits]

theorem updateTransactionDetails_plain (hstatus : t.status = .queued) (source destination : Balance) :
    (t.updateTransactionDetails source destination).status ≠ .void ∧
      (t.updateTransactionDetails source destination).status ≠ .commit := by
  simp only [updateTransactionDetails,hstatus,applicableStatus]
  split <;> decide

/-- What preparing one transaction of a batch went through. -/
structure BatchStep (existing : String → Bool) (st : BatchState) (t : Transaction) (source destination : Balance)
    (applied final : Transaction) (st' : BatchState) : Prop where
  foundSource : find balanceID st.balances t.source = some source
  foundDestination : find balanceID st.balances t.destination = some destination
  reference : validateQueuedBatchTransactionReference existing st.references t = .ok ()
  shared : applyToShared st.balances (t.updateTransactionDetails source destination) source destination =
    .ok (applied,st'.balances)
  work : applied.buildTransactionExecutionWork source destination = (final,false)
  finalized : st'.finalized = st.finalized ++ [final]
  references : st'.references = st.references ++ [t.reference]

variable {existing : String → Bool} {st st' : BatchState}

theorem prepareQueuedBatchTransaction_iff :
    prepareQueuedBatchTransaction existing st t = .ok st' ↔
      ∃ source destination applied final, BatchStep existing st t source destination applied final st' := by
  constructor
  · intro h
    rw [prepareQueuedBatchTransaction] at h
    split at h
    · cases h
    · cases h
    · rename_i source destination hs hd
      obtain ⟨_,href,h⟩ := bind_ok h
      obtain ⟨⟨applied,balances⟩,happly,h⟩ := bind_ok h
      rcases hwork : applied.buildTransactionExecutionWork source destination with ⟨final,_ | _⟩ <;> simp only [hwork] at h
      · cases h
        exact ⟨source,destination,applied,final,hs,hd,href,happly,hwork,rfl,rfl⟩
      · cases h
  · rintro ⟨source,destination,applied,final,hs,hd,href,happly,hwork,hfinalized,hreferences⟩
    simp only [prepareQueuedBatchTransaction,hs,hd,href,happly,bind,Except.bind,hwork]
    rw [← hfinalized,← hreferences]

/-- What the batch has done to the loaded balances so far. -/
structure BatchMoved (loaded : List Balance) (st : BatchState) : Prop where
  ids : st.balances.map balanceID = loaded.map balanceID
  moved : ∀ id b, find balanceID loaded id = some b →
    ∃ b', find balanceID st.balances id = some b' ∧ b.Moved b' (st.finalized.map fun t => t.delta id).sum
  endpoints : ∀ t ∈ st.finalized, t.source ∈ loaded.map balanceID ∧ t.destination ∈ loaded.map balanceID
  funded : ∀ pre t post, st.finalized = pre ++ t :: post → ∃ b b', find balanceID loaded t.source = some b ∧
    b.Moved b' (pre.map fun u => u.delta t.source).sum ∧ canProcessTransaction t b' = .ok ()

/-- A finalised transaction of a batch with the balances it was applied to. -/
structure Finalised (t final : Transaction) : Prop where
  valid : t.validateMonetaryFields = .ok ()
  executed : ∃ (source destination : Balance) (a : ℤ), source.balanceID = t.source ∧
    destination.balanceID = t.destination ∧ 0 < a ∧ (∀ p, t.preciseAmount = some p → p = a) ∧
    final = t.executed source destination a ∧ final.preciseAmount = some a

variable {loaded : List Balance}

theorem prepareQueuedBatchTransaction_ok (ht : canCoalesceQueuedTransaction t = .ok ()) (hst : BatchMoved loaded st)
    (h : prepareQueuedBatchTransaction existing st t = .ok st') :
    BatchMoved loaded st' ∧ ∃ final, st'.finalized = st.finalized ++ [final] ∧ Finalised t final := by
  obtain ⟨hstatus,haction⟩ := canCoalesceQueuedTransaction_ok ht
  obtain ⟨source,destination,applied,final,hs,hd,-,happly,hwork,hfinalized,-⟩ := prepareQueuedBatchTransaction_iff.mp h
  have hsource := find_key hs
  have hdestination := find_key hd
  obtain ⟨hv,hc⟩ := updateTransactionDetails_plain hstatus source destination
  obtain ⟨a,hpos,hkept,hvalid,rfl,hfunded,hids,hmoved⟩ := applyToShared_moved hv hc
    (show find _ _ source.balanceID = _ from hsource ▸ hs)
    (show find _ _ destination.balanceID = _ from hdestination ▸ hd) happly
  obtain rfl : t.executed source destination a = final :=
    (Prod.mk.inj ((buildTransactionExecutionWork_finalised hstatus source destination hpos.ne').symm.trans hwork)).1
  have hpostable : t.Postable := by rw [Transaction.Postable,hstatus]; exact haction
  have hamount : (t.executed source destination a).preciseAmount = some a := by
    simp [executed,hstatus,materialise,convertPreciseToDecimal,
      clearTerminalInflightMetadata]
  have hgain : ∀ id, (t.updateTransactionDetails source destination).gain a id =
      (t.executed source destination a).delta id := by
    intro id
    rw [delta_executed hpostable hamount,gain]
    have hmove : (t.updateTransactionDetails source destination).movement = t.movement := by
      cases hi : t.inflight <;>
        simp [movement,updateTransactionDetails,hstatus,hi,applicableStatus]
    rw [hmove]
    rfl
  refine ⟨⟨hids.trans hst.ids,fun id b hb => ?_,fun u hu => ?_,fun pre u post he => ?_⟩,_,hfinalized,hvalid,source,
    destination,a,hsource,hdestination,hpos,hkept,rfl,hamount⟩
  · obtain ⟨b',hb',hmove⟩ := hst.moved id b hb
    obtain ⟨b'',hb'',hmove'⟩ := hmoved id b' hb'
    refine ⟨b'',hb'',?_⟩
    rw [hfinalized,map_append,sum_append,map_singleton,sum_singleton,← hgain]
    exact hmove.trans hmove'
  · rw [hfinalized] at hu
    rcases mem_append.mp hu with hu | hu
    · exact hst.endpoints u hu
    · rw [mem_singleton.mp hu,← hst.ids]
      exact ⟨mem_map_of_mem (find_mem hs),mem_map_of_mem (find_mem hd)⟩
  · -- the new transaction saw the shared copy as the finalised ones had left it
    rw [hfinalized] at he
    rcases eq_nil_or_concat post with rfl | ⟨post,last,rfl⟩
    · obtain ⟨hpre,hlast⟩ := append_inj' he rfl
      obtain rfl := (List.cons.inj hlast).1
      have hfound : source.balanceID ∈ loaded.map balanceID := hst.ids ▸ mem_map_of_mem (find_mem hs)
      obtain ⟨b,hb⟩ := exists_find hfound
      obtain ⟨b',hb',hmove⟩ := hst.moved _ b hb
      rw [hsource] at hb'
      cases hs.symm.trans hb'
      refine ⟨b,source,hb,hpre ▸ hmove,?_⟩
      have hsame : canProcessTransaction (t.executed source destination a) source =
          canProcessTransaction ((t.updateTransactionDetails source destination).materialise a) source := by
        simp only [executed,hstatus,reduceCtorEq,if_false]
        rfl
      rw [hsame]
      exact hfunded
    · rw [concat_eq_append,← cons_append,← append_assoc] at he
      exact hst.funded pre u post (append_inj' he rfl).1

variable {ts : List Transaction}

theorem batchLoop_ok
    (hts : ∀ t ∈ ts, canCoalesceQueuedTransaction t = .ok ()) (hst : BatchMoved loaded st)
    (h : ts.foldlM (prepareQueuedBatchTransaction existing) st = .ok st') :
    BatchMoved loaded st' ∧ ∃ finals, st'.finalized = st.finalized ++ finals ∧ List.Forall₂ Finalised ts finals := by
  induction ts generalizing st with
  | nil =>
    cases h
    exact ⟨hst,[],(append_nil _).symm,.nil⟩
  | cons t ts ih =>
    obtain ⟨mid,hmid,hrest⟩ := bind_ok h
    obtain ⟨hmoved,final,hfinal,ht⟩ := prepareQueuedBatchTransaction_ok (hts t mem_cons_self) hst hmid
    obtain ⟨hst',finals,hfinals,hall⟩ := ih (fun u hu => hts u (mem_cons_of_mem _ hu)) hmoved hrest
    refine ⟨hst',final :: finals,?_,.cons ht hall⟩
    rw [hfinals,hfinal,append_assoc,singleton_append]

theorem prepareQueuedBatch_ok
    (hts : ∀ t ∈ ts, canCoalesceQueuedTransaction t = .ok ()) (h : prepareQueuedBatch existing ts loaded = .ok st) :
    BatchMoved loaded st ∧ List.Forall₂ Finalised ts st.finalized := by
  obtain ⟨_,-,h⟩ := bind_ok h
  have hstart : BatchMoved loaded ⟨loaded,[],[]⟩ :=
    ⟨rfl,fun id b hb => ⟨b,hb,.refl b⟩,fun t ht => absurd ht not_mem_nil,fun pre t post he => by simp at he⟩
  obtain ⟨hmoved,finals,hfinals,hall⟩ := batchLoop_ok hts hstart h
  exact ⟨hmoved,hfinals ▸ hall⟩

theorem replay_stored {rows : List Row} (h : List.Forall₂ StoredAs ts rows) (id : String) :
    replay rows id = (ts.map fun t => t.delta id).sum := by
  rw [replay_eq_sum]
  induction h with
  | nil => rfl
  | cons hr _ ih => rw [map_cons,map_cons,sum_cons,sum_cons,hr.delta,ih]

/-- Writing a prepared batch posts the sum of its finalised transactions. -/
theorem recordTransactionsWithBalanceSet_posted {db db' : Database}
    (hn : db.UniqueBalances) (hids : (loaded.map balanceID).Nodup) (hne : ∀ b ∈ loaded, b.balanceID ≠ "")
    (hfresh : ∀ b ∈ loaded, Fresh db.balances b.cell) (hst : BatchMoved loaded st)
    (h : db.recordTransactionsWithBalanceSet st.finalized st.balances = .ok db') :
    Unchanged db loaded ∧ ∃ rows, List.Forall₂ StoredAs st.finalized rows ∧ Posted db db' rows := by
  obtain ⟨mid,hmid,h⟩ := bind_ok h
  obtain ⟨rows,hrows,hall⟩ := recordTransactions_ok h
  have hnonempty : ∀ b ∈ st.balances, b.balanceID ≠ "" := by
    intro b hb
    obtain ⟨c,hc,he⟩ := mem_map.mp (hst.ids ▸ mem_map_of_mem hb)
    exact he ▸ hne c hc
  have hwritten := updateBalanceSet_ok hn hmid
  rw [uniqueBalances_of_nodup (hst.ids ▸ hids) hnonempty] at hwritten
  have hmoved : ∀ b ∈ loaded, ∃ w ∈ st.balances, b.Moved w (replay rows b.balanceID) := by
    intro b hb
    obtain ⟨w,hw,hmove⟩ := hst.moved _ b (find_of_mem hids hb)
    rw [replay_stored hrows]
    exact ⟨w,find_mem hw,hmove⟩
  refine ⟨fun b hb => ?_,rows,hrows,posted_of_written loaded hfresh hwritten hst.ids hmoved (fun id hid => ?_) hall⟩
  · obtain ⟨w,hw,hmove⟩ := hmoved b hb
    obtain ⟨c,hc,hv⟩ := hwritten.written.matched w.cell (mem_map_of_mem hw)
    exact ⟨c,hmove.balanceID ▸ hc,hmove.version ▸ hv⟩
  · rw [replay_stored hrows]
    refine sum_eq_zero fun x hx => ?_
    obtain ⟨t,ht,rfl⟩ := mem_map.mp hx
    obtain ⟨hs,hd⟩ := hst.endpoints t ht
    exact Row.delta_of_ne (fun he => hid (he ▸ hs)) (fun he => hid (he ▸ hd))

end LedgerForge
