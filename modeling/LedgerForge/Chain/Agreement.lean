import LedgerForge.Chain.Verification
import LedgerForge.Library.Keyed

/-! # Sealing and verification agree

Along every interleaving of inserts and sealing passes the sealed rows form one chain from the genesis hash to the
chain state.
-/

namespace LedgerForge.Chain

open Framing HashChains List ChainedTransaction

variable {clock : Clock} {sha : Digest}

/-- The rows and checkpoints of the database belong to the chain `cts`. -/
structure Carries (sha : Digest) (db : ChainDatabase clock) (cts : List (ChainedTransaction clock)) : Prop where
  perm : (db.transactions.filterMap StoredTransaction.chained).Perm cts
  linked : Linked (chainLinks sha) 0 chainGenesisHash cts
  ids : (db.transactions.map StoredTransaction.id).Nodup
  txns : (db.transactions.map fun t => t.columns.transactionID).Nodup
  journal : ∀ j ∈ db.insertJournal, ∃ t ∈ db.transactions, t.SameData j
  checkpoints : ∀ cp ∈ db.checkpoints, 0 < cp.sequence ∧ cp.count = cp.sequence ∧
    ∃ ct ∈ cts, ct.chainSeq = cp.sequence ∧ ct.chainHash = cp.headHash

/-- The chain state is the end of the chain. -/
structure ChainSound (sha : Digest) (db : ChainDatabase clock) (cts : List (ChainedTransaction clock)) : Prop
    extends Carries sha db cts where
  genesis : db.state.genesisHash = chainGenesisHash
  last : db.state.lastSeq = cts.length
  head : db.state.headHash = headOf (chainLinks sha) chainGenesisHash cts

def Kept (db db' : ChainDatabase clock) : Prop :=
  ∀ t ∈ db.transactions, ∃ u ∈ db'.transactions, u.SameData t ∧ ∀ s, t.chain = some s → u.chain = some s

theorem Kept.refl (db : ChainDatabase clock) : Kept db db := fun t ht => ⟨t,ht,⟨rfl,rfl,rfl⟩,fun _ h => h⟩

theorem Kept.trans {db₁ db₂ db₃ : ChainDatabase clock} (h₁ : Kept db₁ db₂) (h₂ : Kept db₂ db₃) : Kept db₁ db₃ := by
  intro t ht
  obtain ⟨u,hu,⟨hid,hcolumns,hother⟩,hseal⟩ := h₁ t ht
  obtain ⟨v,hv,⟨hid',hcolumns',hother'⟩,hseal'⟩ := h₂ u hu
  exact ⟨v,hv,⟨hid'.trans hid,hcolumns'.trans hcolumns,hother'.trans hother⟩,fun s hs => hseal' s (hseal s hs)⟩

variable {db db' : ChainDatabase clock} {cts : List (ChainedTransaction clock)}

theorem Carries.chainedTransactions_eq (hc : Carries sha db cts) : db.chainedTransactions = cts :=
  hc.linked.insertionSort_eq hc.perm

variable {t : StoredTransaction clock} {s : Seal}

theorem chained_of_none (h : t.chain = none) : t.chained = none := by
  rw [StoredTransaction.chained,h]
  rfl

theorem ChainSound.insert (hs : ChainSound sha db cts) (h : db.insertTransaction t = .ok db') :
    ChainSound sha db' cts ∧ Kept db db' := by
  obtain ⟨hnone,h⟩ := ok_of_guard h
  obtain rfl := Except.ok.inj h
  have hfresh : ∀ u ∈ db.transactions, u.id ≠ t.id ∧ u.columns.transactionID ≠ t.columns.transactionID := by
    simpa using hnone
  refine ⟨⟨⟨?_,hs.linked,?_,?_,?_,hs.checkpoints⟩,hs.genesis,hs.last,hs.head⟩,?_⟩
  · rw [filterMap_append,filterMap_cons_none (chained_of_none rfl),filterMap_nil,append_nil]
    exact hs.perm
  · exact Keyed.nodup_concat hs.ids fun u hu => (hfresh u hu).1
  · exact Keyed.nodup_concat hs.txns fun u hu => (hfresh u hu).2
  · intro j hj
    rcases mem_append.mp hj with hj | hj
    · obtain ⟨u,hu,hsame⟩ := hs.journal j hj
      exact ⟨u,mem_append_left _ hu,hsame⟩
    · obtain rfl := mem_singleton.mp hj
      exact ⟨_,mem_append_right _ (mem_singleton_self _),rfl,rfl,rfl⟩
  · intro u hu
    exact ⟨u,mem_append_left _ hu,⟨rfl,rfl,rfl⟩,fun _ h => h⟩

theorem writeSeal_transactions {pre post : List (StoredTransaction clock)}
    (hsplit : db.transactions = pre ++ t :: post) (hids : (db.transactions.map StoredTransaction.id).Nodup)
    (ht : t.chain = none) : (db.writeSeal t.id s).transactions = pre ++ { t with chain := some s } :: post := by
  rw [hsplit] at hids
  have hupdate : ∀ u ∈ pre ++ t :: post, (if u.id = t.id ∧ u.chain = none then { u with chain := some s } else u) =
      if u.id = t.id then { u with chain := some s } else u := by
    intro u hu
    by_cases hid : u.id = t.id
    · obtain rfl : u = t := inj_on_of_nodup_map hids hu (mem_append_right _ mem_cons_self) hid
      rw [if_pos ⟨rfl,ht⟩,if_pos rfl]
    · rw [if_neg hid,if_neg fun h => hid h.1]
  change db.transactions.map _ = _
  rw [hsplit,map_congr_left hupdate]
  exact Keyed.map_update hids fun u => { u with chain := some s }

theorem kept_writeSeal (id : ℕ) (s : Seal) : Kept db (db.writeSeal id s) := by
  intro t ht
  refine ⟨_,mem_map_of_mem ht,?_⟩
  split
  · rename_i h
    exact ⟨⟨rfl,rfl,rfl⟩,fun _ hs => by rw [h.2] at hs; cases hs⟩
  · exact ⟨⟨rfl,rfl,rfl⟩,fun _ h => h⟩

/-- One link extends the chain. -/
theorem Carries.writeSeal (hc : Carries sha db cts) (hmem : t ∈ db.transactions)
    (ht : t.chain = none) {hash : Bytes}
    (hhash : computeChainHashVersion sha 3 (headOf (chainLinks sha) chainGenesisHash cts) t.chainRow = .ok hash) :
    Carries sha (db.writeSeal t.id ⟨cts.length+1,headOf (chainLinks sha) chainGenesisHash cts,hash,3⟩)
      (cts ++ [⟨3,t.chainRow,cts.length+1,headOf (chainLinks sha) chainGenesisHash cts,hash⟩]) := by
  obtain ⟨pre,post,hsplit⟩ := append_of_mem hmem
  have hrows := writeSeal_transactions (s := ⟨cts.length+1,headOf (chainLinks sha) chainGenesisHash cts,hash,3⟩) hsplit hc.ids ht
  have hperm := hc.perm
  have hids := hc.ids
  have htxns := hc.txns
  rw [hsplit] at hperm hids htxns
  refine ⟨?_,linked_concat.mpr ⟨hc.linked,?_,rfl,hhash⟩,?_,?_,?_,fun cp hcp => ?_⟩
  · rw [hrows]
    rw [filterMap_append,filterMap_cons_none (chained_of_none ht)] at hperm
    rw [filterMap_append]
    exact perm_middle.trans ((hperm.cons _).trans (perm_append_singleton _ _).symm)
  · exact congrArg (· + 1) (zero_add (cts.length : ℤ)).symm
  · rw [hrows]
    simpa using hids
  · rw [hrows]
    simpa using htxns
  · intro j hj
    obtain ⟨u,hu,hid,hcolumns,hother⟩ := hc.journal j hj
    obtain ⟨v,hv,⟨hid',hcolumns',hother'⟩,-⟩ := kept_writeSeal t.id _ u hu
    exact ⟨v,hv,hid'.trans hid,hcolumns'.trans hcolumns,hother'.trans hother⟩
  · obtain ⟨hpos,hcount,ct,hct,hat⟩ := hc.checkpoints cp hcp
    exact ⟨hpos,hcount,ct,mem_append_left _ hct,hat⟩

theorem Carries.checkpoint (hc : Carries sha db cts) {ct : ChainedTransaction clock} (hct : ct ∈ cts) (hseq : s.seq = ct.chainSeq) (hhash : s.hash = ct.chainHash) {lastSeq : ℤ} (h : db.checkpoint lastSeq s = .ok db') :
    Carries sha db' cts ∧ db'.transactions = db.transactions ∧ db'.state = db.state := by
  unfold ChainDatabase.checkpoint ChainDatabase.insertCheckpoint at h
  split_ifs at h
  · cases h
    refine ⟨⟨hc.perm,hc.linked,hc.ids,hc.txns,hc.journal,fun cp hcp => ?_⟩,rfl,rfl⟩
    rcases mem_append.mp hcp with hcp | hcp
    · exact hc.checkpoints cp hcp
    · obtain rfl := mem_singleton.mp hcp
      exact ⟨hseq ▸ (hc.linked.bounds hct).1,rfl,ct,hct,hseq.symm,hhash.symm⟩
  · cases h
    exact ⟨hc,rfl,rfl⟩

/-- What writing the links of a batch does. -/
theorem Carries.extend {ts : List (StoredTransaction clock)} {batch : List (ℕ × Seal)} {lastSeq : ℤ}
    (hc : Carries sha db cts) (hpending : ∀ t ∈ ts, t ∈ db.transactions ∧ t.chain = none)
    (hids : (ts.map StoredTransaction.id).Nodup)
    (hlinks : links sha cts.length (headOf (chainLinks sha) chainGenesisHash cts) ts = .ok batch)
    (h : writeLinks lastSeq db batch = .ok db') :
    ∃ new, Carries sha db' (cts ++ new) ∧ new.map (fun ct => (ct.chainSeq,ct.chainHash)) =
      batch.map (fun l => (l.2.seq,l.2.hash)) ∧ db'.state = db.state ∧ Kept db db' := by
  induction ts generalizing db cts batch with
  | nil =>
    cases hlinks
    cases h
    exact ⟨[],by simpa using hc,rfl,rfl,.refl _⟩
  | cons t ts ih =>
    obtain ⟨hash,hhash,hlinks⟩ := bind_ok hlinks
    obtain ⟨rest,hrest,hlinks⟩ := bind_ok hlinks
    cases hlinks
    obtain ⟨hmem,ht⟩ := hpending t mem_cons_self
    obtain ⟨checked,hchecked,hrun⟩ := bind_ok h
    have hwritten := hc.writeSeal hmem ht hhash
    set ct : ChainedTransaction clock := ⟨3,t.chainRow,cts.length+1,headOf (chainLinks sha) chainGenesisHash cts,hash⟩
    set s : Seal := ⟨cts.length+1,headOf (chainLinks sha) chainGenesisHash cts,hash,3⟩
    have hct : ct ∈ cts ++ [ct] := mem_append_right _ (mem_singleton_self ct)
    obtain ⟨hcarries,hrows,hstate⟩ := hwritten.checkpoint hct rfl rfl hchecked
    rw [map_cons,nodup_cons] at hids
    -- the rows still to be written have other identifiers
    have hstill : ∀ u ∈ ts, u ∈ checked.transactions ∧ u.chain = none := by
      intro u hu
      obtain ⟨hu',hnone⟩ := hpending u (mem_cons_of_mem _ hu)
      refine ⟨hrows ▸ mem_map.mpr ⟨u,hu',if_neg fun h => hids.1 ?_⟩,hnone⟩
      exact h.1 ▸ mem_map_of_mem hu
    have hlength : (cts ++ [ct]).length = cts.length+1 := by simp
    obtain ⟨new,hnew,hmap,hstate',hkept⟩ := ih hcarries hstill hids.2 (by rw [hlength,headOf_concat]; exact hrest) hrun
    refine ⟨ct :: new,by rw [append_cons]; exact hnew,by rw [map_cons,hmap]; rfl,hstate'.trans hstate,?_⟩
    refine Kept.trans (kept_writeSeal t.id s) (fun u hu => hkept u (hrows ▸ hu))

theorem unchained_pending {cutoff : clock.Time} {batchSize : ℤ}
    (ht : t ∈ db.unchained cutoff batchSize) : t ∈ db.transactions ∧ t.chain = none := by
  have hfilter := (mem_insertionSort _).mp (mem_of_mem_take ht)
  obtain ⟨hmem,hopen⟩ := mem_filter.mp hfilter
  exact ⟨hmem,Option.isNone_iff_eq_none.mp (Bool.and_eq_true_iff.mp hopen).1⟩

theorem unchained_ids (hids : (db.transactions.map StoredTransaction.id).Nodup) (cutoff : clock.Time) (batchSize : ℤ) :
    ((db.unchained cutoff batchSize).map StoredTransaction.id).Nodup := by
  have hfilter : ((db.transactions.filter fun t => t.chain.isNone && clock.before t.columns.createdAt cutoff).map
      StoredTransaction.id).Nodup := hids.sublist (filter_sublist.map _)
  have hsorted := ((perm_insertionSort (fun t u : StoredTransaction clock => t.id ≤ u.id) _).map StoredTransaction.id).nodup_iff.mpr hfilter
  exact hsorted.sublist ((take_sublist _ _).map _)

/-- A pass extends the chain to its new state. -/
theorem ChainSound.seal (hs : ChainSound sha db cts) {cutoff : clock.Time} {batchSize : ℤ} {n : ℕ}
    (h : db.chainPendingTransactions sha cutoff batchSize = .ok (db',n)) :
    (∃ cts', ChainSound sha db' cts') ∧ Kept db db' := by
  obtain ⟨-,h⟩ := ok_of_guard h
  obtain ⟨batch,hlinks,h⟩ := bind_ok h
  cases hlast : batch.getLast? with
  | none =>
    rw [hlast] at h
    cases h
    exact ⟨⟨cts,hs⟩,.refl _⟩
  | some last =>
    rw [hlast] at h
    obtain ⟨written,hwritten,h⟩ := bind_ok h
    cases h
    rw [hs.last,hs.head] at hlinks
    obtain ⟨new,hnew,hmap,hstate,hkept⟩ := hs.extend (fun t => unchained_pending) (unchained_ids hs.ids cutoff batchSize)
      hlinks hwritten
    -- the last link of the batch is the end of the chain
    obtain rfl | ⟨init,ct,rfl⟩ := eq_nil_or_concat' new
    · rw [map_eq_nil_iff.mp hmap.symm] at hlast
      cases hlast
    have hend : (ct.chainSeq,ct.chainHash) = (last.2.seq,last.2.hash) := by
      have hgetLast := congrArg List.getLast? hmap
      rw [map_append,map_singleton,List.getLast?_concat,List.getLast?_map,hlast] at hgetLast
      exact Option.some.inj hgetLast
    obtain ⟨hseq,hhash⟩ := Prod.mk.inj hend
    refine ⟨⟨cts ++ (init ++ [ct]),⟨⟨hnew.perm,hnew.linked,hnew.ids,hnew.txns,hnew.journal,hnew.checkpoints⟩,?_,?_,?_⟩⟩,hkept⟩
    · exact (congrArg ChainState.genesisHash hstate).trans hs.genesis
    · have hposition := hnew.linked
      rw [← append_assoc] at hposition
      have hposition : ct.chainSeq = 0+(cts ++ init).length+1 := (linked_concat.mp hposition).2.1
      change last.2.seq = _
      rw [← append_assoc,length_append,length_singleton]
      omega
    · rw [← append_assoc,headOf_concat]
      exact hhash.symm

theorem ChainSound.step (hs : ChainSound sha db cts) (e : ChainEvent clock) :
    (∃ cts', ChainSound sha (db.step sha e) cts') ∧ Kept db (db.step sha e) := by
  cases e with
  | insert t =>
    rw [ChainDatabase.step]
    cases h : db.insertTransaction t with
    | error e => exact ⟨⟨cts,hs⟩,.refl db⟩
    | ok db' => exact ⟨⟨cts,(hs.insert h).1⟩,(hs.insert h).2⟩
  | sealing cutoff batchSize =>
    rw [ChainDatabase.step]
    cases h : db.chainPendingTransactions sha cutoff batchSize with
    | error e => exact ⟨⟨cts,hs⟩,.refl db⟩
    | ok r => exact hs.seal h

theorem ChainSound.init : ChainSound sha (ChainDatabase.init clock) [] where
  perm := .nil
  linked := trivial
  ids := .nil
  txns := .nil
  journal := nofun
  checkpoints := nofun
  genesis := rfl
  last := rfl
  head := rfl

theorem ChainSound.run (hs : ChainSound sha db cts) (events : List (ChainEvent clock)) :
    (∃ cts', ChainSound sha (db.run sha events) cts') ∧ Kept db (db.run sha events) := by
  induction events generalizing db cts with
  | nil => exact ⟨⟨cts,hs⟩,.refl db⟩
  | cons e events ih =>
    obtain ⟨⟨cts',hs'⟩,hkept⟩ := hs.step e
    obtain ⟨hsound,hkept'⟩ := ih hs'
    exact ⟨hsound,hkept.trans hkept'⟩

theorem Carries.root_eq (hc : Carries sha db cts) {ct : ChainedTransaction clock} (hct : ct ∈ cts) {root : Bytes}
    (hroot : db.roots ct.chainSeq = some root) : root = ct.chainHash := by
  obtain ⟨cp,hcp,hseq,rfl⟩ := db.roots_eq_some hroot
  obtain ⟨-,-,ct',hct',hseq',hhash⟩ := hc.checkpoints cp hcp
  obtain rfl : ct' = ct := hc.linked.eq_of_seq hct' hct (hseq'.trans hseq)
  exact hhash.symm

theorem ChainSound.verifies (hs : ChainSound sha db cts) {anchors : List ChainCheckpoint}
    (hanchors : ∀ a ∈ anchors, a ∈ db.checkpoints) : Verifies sha db anchors where
  anchors a ha := by
    obtain ⟨hpos,hcount,ct,hct,hseq,hhash⟩ := hs.checkpoints a (hanchors a ha)
    obtain ⟨root,hroot⟩ := Option.isSome_iff_exists.mp (db.isSome_roots (hanchors a ha))
    refine ⟨hpos,hcount,?_⟩
    have hroot_eq : root = ct.chainHash := hs.root_eq hct (hseq.symm ▸ hroot)
    rw [hroot,hroot_eq,hhash]
  genesis := hs.genesis
  linked := by
    rw [hs.genesis,hs.chainedTransactions_eq]
    exact hs.linked
  roots ct hct root hroot := hs.root_eq (hs.chainedTransactions_eq ▸ hct) hroot
  last := by rw [hs.last,hs.chainedTransactions_eq]
  head := by rw [hs.head,hs.genesis,hs.chainedTransactions_eq]
  checkpoints cp hcp := by
    obtain ⟨-,hcount,ct,hct,hseq,-⟩ := hs.checkpoints cp hcp
    exact ⟨hcount,ct,hs.chainedTransactions_eq.symm ▸ hct,hseq⟩
  journal j hj := by
    obtain ⟨t,ht,hsame⟩ := hs.journal j hj
    refine ⟨⟨t,ht,by rw [hsame.2.1]⟩,fun u hu hid => ?_⟩
    obtain rfl : u = t := inj_on_of_nodup_map hs.txns hu ht (by rw [hid,hsame.2.1])
    exact hsame

theorem linked_seqs {n : ℤ} {h : Bytes} (hl : Linked (chainLinks sha) n h cts) :
    cts.map chainSeq = (List.range cts.length).map fun (i : ℕ) => n+i+1 := by
  induction cts generalizing n h with
  | nil => rfl
  | cons ct cts ih =>
    obtain ⟨hseq,-,-,hrest⟩ := hl
    rw [map_cons,ih hrest,length_cons,range_succ_eq_map,map_cons,map_map]
    congr 1
    · exact hseq.trans (by simp)
    · refine map_congr_left fun i _ => ?_
      simp only [Function.comp_apply,Nat.cast_succ]
      ring

/-- Along every run the sealed rows are numbered without gaps and linked, seals are final, checkpoints lie on the
chain, and verification confirms all of it. -/
theorem sealing_verifies (clock : Clock) (sha : Digest) (events later : List (ChainEvent clock)) :
    let db := (ChainDatabase.init clock).run sha events
    db.chainedTransactions.map chainSeq = (List.range db.chainedTransactions.length).map (fun (i : ℕ) => (i : ℤ)+1) ∧
    db.state.lastSeq = db.chainedTransactions.length ∧
    (∀ pre a b post, db.chainedTransactions = pre ++ a :: b :: post → b.chainPrevHash = a.chainHash) ∧
    (∀ a ∈ db.chainedTransactions.head?, a.chainPrevHash = chainGenesisHash) ∧
    (db.transactions.map StoredTransaction.id).Nodup ∧
    (∀ t ∈ db.transactions, ∃ u ∈ (db.run sha later).transactions, u.SameData t ∧ ∀ s, t.chain = some s → u.chain = some s) ∧
    (∀ cp ∈ db.checkpoints, cp.count = cp.sequence ∧
      ∃ ct ∈ db.chainedTransactions, ct.chainSeq = cp.sequence ∧ ct.chainHash = cp.headHash) ∧
    ∀ anchors, (∀ a ∈ anchors, a ∈ db.checkpoints) →
      (db.verifyChainSnapshotWithAnchors sha anchors).verified = true ∧
      (db.verifyChainSnapshotWithAnchors sha anchors).pending = (db.transactions.filter fun t => t.chain.isNone).length := by
  intro db
  obtain ⟨⟨cts,hs⟩,-⟩ : (∃ cts, ChainSound sha db cts) ∧ _ := (@ChainSound.init _ sha).run events
  have hlinked := hs.linked
  rw [hs.chainedTransactions_eq]
  refine ⟨?_,hs.last,?_,?_,hs.ids,(hs.run later).2,?_,?_⟩
  · simpa using linked_seqs hlinked
  · rintro pre a b post rfl
    exact (linked_append.mp hlinked).2.2.2.2.2.1
  · intro a ha
    cases cts with
    | nil => cases ha
    | cons x cts =>
      cases ha
      exact hlinked.2.1
  · intro cp hcp
    exact (hs.checkpoints cp hcp).2
  · intro anchors hanchors
    exact ⟨verified_iff.mpr (hs.verifies hanchors),countP_eq_length_filter⟩

end LedgerForge.Chain
