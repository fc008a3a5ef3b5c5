import LedgerForge.Chain.Sealing

/-! # What verification establishes

A snapshot is verified exactly when its sealed rows are linked from the genesis hash to the chain state, and the
checkpoints, the anchors and the insert journal agree with them.
-/

namespace LedgerForge.Chain

open Framing HashChains List ChainedTransaction ChainDatabase Function Nat

variable {clock : Clock} (sha : Digest)

/-- The chain the verifier replays: an entry is valid when its hash is the one its row gives. -/
def chainLinks : Links (ChainedTransaction clock) Bytes where
  seq := chainSeq
  prev := chainPrevHash
  hash := chainHash
  valid ct := computeChainHashVersion sha ct.canonicalVersion ct.chainPrevHash ct.row = .ok ct.chainHash

variable {sha}

variable {ct : ChainedTransaction clock} {roots : ℤ → Option Bytes} {s : Replay}
variable {cts : List (ChainedTransaction clock)} {k : ℤ} {h : Bytes} {db : ChainDatabase clock} {cp : ChainCheckpoint}

theorem hashIssues_eq_nil : hashIssues sha ct = [] ↔ (chainLinks sha).valid ct := by
  change _ ↔ computeChainHashVersion sha ct.canonicalVersion ct.chainPrevHash ct.row = .ok ct.chainHash
  unfold hashIssues
  cases computeChainHashVersion sha ct.canonicalVersion ct.chainPrevHash ct.row with
  | error e => simp
  | ok hash => simp

theorem rootIssues_eq_nil :
    rootIssues roots ct = [] ↔ ∀ root, roots ct.chainSeq = some root → root = ct.chainHash := by
  unfold rootIssues
  cases roots ct.chainSeq with
  | none => simp
  | some root => simp

theorem rowIssues_eq_nil :
    rowIssues sha s ct = [] ↔ ct.chainSeq = s.count+1 ∧ ct.chainPrevHash = s.head ∧ (chainLinks sha).valid ct ∧
      ∀ root, s.roots ct.chainSeq = some root → root = ct.chainHash := by
  simp only [rowIssues,append_eq_nil_iff,hashIssues_eq_nil,rootIssues_eq_nil,ite_eq_right_iff,cons_ne_nil,
    imp_false,not_not,and_assoc]

theorem replay_tampering :
    (cts.foldl (Replay.next sha) s).tampering = [] ↔ s.tampering = [] ∧ Linked (chainLinks sha) s.count s.head cts ∧
      ∀ ct ∈ cts, ∀ root, s.roots ct.chainSeq = some root → root = ct.chainHash := by
  induction cts generalizing s with
  | nil => simp [Linked]
  | cons ct cts ih =>
    rw [foldl_cons,ih]
    simp only [Replay.next,append_eq_nil_iff,rowIssues_eq_nil,Linked,forall_mem_cons]
    -- the entries after this one have other numbers, so the root it used up is not missed
    have hroots : Linked (chainLinks sha) (s.count+1) ct.chainHash cts → ct.chainSeq = s.count+1 →
        ∀ x ∈ cts, update s.roots ct.chainSeq none x.chainSeq = s.roots x.chainSeq := by
      intro hlinked hseq x hx
      refine update_of_ne (fun h => ?_) _ _
      have := (hlinked.bounds hx).1
      have : (chainLinks sha).seq x = x.chainSeq := rfl
      omega
    constructor
    · rintro ⟨⟨hs,hseq,hprev,hvalid,hroot⟩,hlinked,hrest⟩
      exact ⟨hs,⟨hseq,hprev,hvalid,hlinked⟩,hroot,fun x hx => hroots hlinked hseq x hx ▸ hrest x hx⟩
    · rintro ⟨hs,⟨hseq,hprev,hvalid,hlinked⟩,hroot,hrest⟩
      exact ⟨⟨hs,hseq,hprev,hvalid,hroot⟩,hlinked,fun x hx => (hroots hlinked hseq x hx).symm ▸ hrest x hx⟩

theorem replay_count :
    (cts.foldl (Replay.next sha) s).count = s.count+cts.length := by
  induction cts generalizing s with
  | nil => simp
  | cons ct cts ih =>
    rw [foldl_cons,ih]
    simp only [Replay.next,length_cons,cast_add,cast_one]
    ring

theorem replay_head :
    (cts.foldl (Replay.next sha) s).head = headOf (chainLinks sha) s.head cts := by
  induction cts generalizing s with
  | nil => rfl
  | cons ct cts ih => exact ih

theorem replay_lastSeq (hlinked : Linked (chainLinks sha) s.count s.head cts) (hlast : s.lastSeq = s.count) :
    (cts.foldl (Replay.next sha) s).lastSeq = s.count+cts.length := by
  induction cts generalizing s with
  | nil => simp [hlast]
  | cons ct cts ih =>
    obtain ⟨hseq,-,-,hrest⟩ := hlinked
    rw [foldl_cons,ih hrest hseq]
    simp only [Replay.next,length_cons,cast_add,cast_one]
    ring

theorem replay_roots :
    (cts.foldl (Replay.next sha) s).roots k = none ↔ s.roots k = none ∨ ∃ ct ∈ cts, ct.chainSeq = k := by
  induction cts generalizing s with
  | nil => simp
  | cons ct cts ih =>
    rw [foldl_cons,ih]
    simp only [Replay.next,update_apply,exists_mem_cons_iff]
    by_cases hk : k = ct.chainSeq
    · simp [hk]
    · simp [hk,Ne.symm hk]

theorem foldl_roots {cps : List ChainCheckpoint}
    (hr : cps.foldl addRoot roots k = some h) :
    roots k = some h ∨ ∃ cp ∈ cps, cp.sequence = k ∧ cp.headHash = h := by
  induction cps generalizing roots with
  | nil => exact .inl hr
  | cons cp cps ih =>
    rcases ih hr with hr | ⟨x,hx,hk⟩
    · rw [addRoot,update_apply] at hr
      split at hr
      · rename_i hk
        exact .inr ⟨cp,mem_cons_self,hk.symm,Option.some.inj hr⟩
      · exact .inl hr
    · exact .inr ⟨x,mem_cons_of_mem _ hx,hk⟩

theorem mem_readChainCheckpoints :
    cp ∈ db.readChainCheckpoints ↔ cp ∈ db.checkpoints := mem_insertionSort _

theorem ChainDatabase.roots_eq_some (hr : db.roots k = some h) :
    ∃ cp ∈ db.checkpoints, cp.sequence = k ∧ cp.headHash = h := by
  rcases foldl_roots hr with hr | ⟨cp,hcp,hk⟩
  · cases hr
  · exact ⟨cp,mem_readChainCheckpoints.mp hcp,hk⟩

theorem isSome_foldl_roots {cps : List ChainCheckpoint}
    (hk : (roots k).isSome ∨ ∃ cp ∈ cps, cp.sequence = k) :
    (cps.foldl addRoot roots k).isSome := by
  induction cps generalizing roots with
  | nil => simpa using hk
  | cons cp cps ih =>
    refine ih ?_
    rw [addRoot,update_apply]
    rcases hk with hk | ⟨x,hx,hk⟩
    · left
      split
      · rfl
      · exact hk
    · rcases mem_cons.mp hx with rfl | hx
      · simp [hk]
      · exact .inr ⟨x,hx,hk⟩

theorem ChainDatabase.isSome_roots (hcp : cp ∈ db.checkpoints) :
    (db.roots cp.sequence).isSome :=
  isSome_foldl_roots (.inr ⟨cp,mem_readChainCheckpoints.mpr hcp,rfl⟩)

/-- What a verified snapshot satisfies. -/
structure Verifies (sha : Digest) (db : ChainDatabase clock) (anchors : List ChainCheckpoint) : Prop where
  anchors : ∀ a ∈ anchors, 0 < a.sequence ∧ a.count = a.sequence ∧ db.roots a.sequence = some a.headHash
  genesis : db.state.genesisHash = chainGenesisHash
  linked : Linked (chainLinks sha) 0 db.state.genesisHash db.chainedTransactions
  roots : ∀ ct ∈ db.chainedTransactions, ∀ root, db.roots ct.chainSeq = some root → root = ct.chainHash
  last : db.state.lastSeq = db.chainedTransactions.length
  head : db.state.headHash = headOf (chainLinks sha) db.state.genesisHash db.chainedTransactions
  checkpoints : ∀ cp ∈ db.checkpoints, cp.count = cp.sequence ∧ ∃ ct ∈ db.chainedTransactions, ct.chainSeq = cp.sequence
  journal : ∀ j ∈ db.insertJournal,
    (∃ t ∈ db.transactions, t.columns.transactionID = j.columns.transactionID) ∧
    ∀ t ∈ db.transactions, t.columns.transactionID = j.columns.transactionID → t.SameData j

theorem anchorIssues_eq_nil {a : ChainCheckpoint} :
    anchorIssues roots a = [] ↔ 0 < a.sequence ∧ a.count = a.sequence ∧ roots a.sequence = some a.headHash := by
  unfold anchorIssues
  split_ifs with hinvalid hroot
  · simp only [false_iff]
    omega
  · simp only [false_iff]
    exact fun h => hroot h.2.2
  · simp only [true_iff]
    push Not at hinvalid hroot
    exact ⟨hinvalid.1,hinvalid.2,hroot⟩

theorem checkpointIssues_eq_nil :
    checkpointIssues roots cp = [] ↔ roots cp.sequence = none ∧ cp.count = cp.sequence := by
  simp [checkpointIssues]

theorem journalIssues_eq_nil {rows : List (StoredTransaction clock)} {j : StoredTransaction clock} :
    journalIssues rows j = [] ↔ (∃ t ∈ rows, t.columns.transactionID = j.columns.transactionID) ∧
      ∀ t ∈ rows, t.columns.transactionID = j.columns.transactionID → t.SameData j := by
  unfold journalIssues
  simp only
  split_ifs with hmissing hdiffers
  · simp only [false_iff]
    rintro ⟨⟨t,ht,hid⟩,-⟩
    simpa [hid] using filter_eq_nil_iff.mp hmissing t ht
  · simp only [false_iff]
    rintro ⟨-,hsame⟩
    obtain ⟨t,ht,hne⟩ := any_eq_true.mp hdiffers
    obtain ⟨ht,hid⟩ := mem_filter.mp ht
    exact of_decide_eq_true hne (hsame t ht (of_decide_eq_true hid))
  · simp only [true_iff]
    obtain ⟨t,ht⟩ := exists_mem_of_ne_nil _ hmissing
    obtain ⟨ht,hid⟩ := mem_filter.mp ht
    refine ⟨⟨t,ht,of_decide_eq_true hid⟩,fun u hu huid => ?_⟩
    by_contra hne
    exact hdiffers (any_eq_true.mpr ⟨u,mem_filter.mpr ⟨hu,decide_eq_true huid⟩,decide_eq_true hne⟩)

theorem verified_iff {anchors : List ChainCheckpoint} :
    (db.verifyChainSnapshotWithAnchors sha anchors).verified = true ↔ Verifies sha db anchors := by
  unfold verifyChainSnapshotWithAnchors tampering replay
  simp only [List.isEmpty_iff,append_eq_nil_iff,replay_tampering,flatMap_eq_nil_iff,anchorIssues_eq_nil,
    dedup_eq_nil,journalIssues_eq_nil,checkpointIssues_eq_nil,replay_roots,mem_readChainCheckpoints,
    ite_eq_right_iff,cons_ne_nil,imp_false,not_not,stateIssues,replay_count,replay_head,not_or,zero_add]
  constructor
  · rintro ⟨⟨⟨⟨⟨hanchors,hgenesis⟩,hlinked,hroots⟩,hlast,-,hhead⟩,hcheckpoints⟩,hjournal⟩
    refine ⟨hanchors,hgenesis,hlinked,hroots,hlast.symm,hhead.symm,fun cp hcp => ?_,hjournal⟩
    obtain ⟨hroot,hcount⟩ := hcheckpoints cp hcp
    refine ⟨hcount,hroot.resolve_left fun hnone => ?_⟩
    have hsome := db.isSome_roots hcp
    rw [hnone] at hsome
    cases hsome
  · rintro ⟨hanchors,hgenesis,hlinked,hroots,hlast,hhead,hcheckpoints,hjournal⟩
    refine ⟨⟨⟨⟨⟨hanchors,hgenesis⟩,hlinked,hroots⟩,hlast.symm,?_,hhead.symm⟩,fun cp hcp => ?_⟩,hjournal⟩
    · rw [replay_lastSeq hlinked rfl,hlast]
      exact zero_add _
    · exact ⟨.inr (hcheckpoints cp hcp).2,(hcheckpoints cp hcp).1⟩

def ChainedTransaction.canonical (ct : ChainedTransaction clock) : Option Bytes :=
  if ct.canonicalVersion = 1 then some (canonicalChainV1 ct.chainPrevHash ct.row)
  else if ct.canonicalVersion = 2 then canonicalChainV2 ct.chainPrevHash ct.row
  else if ct.canonicalVersion = 3 then canonicalChainV3 ct.chainPrevHash ct.row
  else none

def ChainDatabase.hashedInputs (db : ChainDatabase clock) : List Bytes :=
  db.chainedTransactions.filterMap canonical

def NoCollisions (sha : Digest) (inputs : List Bytes) : Prop := ∀ x ∈ inputs, ∀ y ∈ inputs, sha.sum x = sha.sum y → x = y

/-- Two sealed rows agree in their seals and in every field their version covers. -/
structure SealedAlike (a b : ChainedTransaction clock) : Prop where
  version : a.canonicalVersion = b.canonicalVersion
  seq : a.chainSeq = b.chainSeq
  prev : a.chainPrevHash = b.chainPrevHash
  hash : a.chainHash = b.chainHash
  second : a.canonicalVersion = 2 → AgreeV2 a.row b.row
  third : a.canonicalVersion = 3 → AgreeV3 a.row b.row

theorem hashBuffered_ok {b : Option Bytes} (hok : hashBuffered sha b = .ok h) : ∃ x, b = some x ∧ sha.sum x = h := by
  cases b with
  | none => cases hok
  | some x => exact ⟨x,rfl,Except.ok.inj hok⟩

theorem exists_canonical {a : ChainedTransaction clock} (ha : (chainLinks sha).valid a) :
    ∃ x, a.canonical = some x ∧ sha.sum x = a.chainHash := by
  change computeChainHashVersion sha a.canonicalVersion a.chainPrevHash a.row = .ok a.chainHash at ha
  unfold computeChainHashVersion at ha
  unfold canonical
  split_ifs at ha ⊢
  · exact ⟨_,rfl,Except.ok.inj ha⟩
  all_goals exact hashBuffered_ok ha

theorem canonical_injective {a b : ChainedTransaction clock} {x : Bytes} (ha : a.canonical = some x) (hb : b.canonical = some x)
    (hva : a.canonicalVersion = 2 ∨ a.canonicalVersion = 3) (hvb : b.canonicalVersion = 2 ∨ b.canonicalVersion = 3) :
    a.chainPrevHash = b.chainPrevHash ∧ a.canonicalVersion = b.canonicalVersion ∧
      (a.canonicalVersion = 2 → AgreeV2 a.row b.row) ∧ (a.canonicalVersion = 3 → AgreeV3 a.row b.row) := by
  unfold canonical at ha hb
  rcases hva with hva | hva <;> rcases hvb with hvb | hvb <;> simp only [hva,hvb] at ha hb ⊢ <;> norm_num at ha hb ⊢
  · exact canonicalChainV2_injective ha hb
  · exact canonicalChainV2_ne_V3 ha hb
  · exact canonicalChainV2_ne_V3 hb ha
  · exact canonicalChainV3_injective ha hb

theorem Verifies.anchored {anchors : List ChainCheckpoint} (hv : Verifies sha db anchors)
    {anchor : ChainCheckpoint} (hanchor : anchor ∈ anchors) :
    ∃ pre post, db.chainedTransactions = pre ++ post ∧ (pre.length : ℤ) = anchor.sequence ∧
      Linked (chainLinks sha) 0 chainGenesisHash pre ∧ headOf (chainLinks sha) chainGenesisHash pre = anchor.headHash := by
  obtain ⟨-,-,hroot⟩ := hv.anchors anchor hanchor
  obtain ⟨cp,hcp,hseq,-⟩ := db.roots_eq_some hroot
  obtain ⟨ct,hct,hctseq⟩ := (hv.checkpoints cp hcp).2
  have hhash : anchor.headHash = ct.chainHash := hv.roots ct hct _ (by rw [hctseq,hseq,hroot])
  obtain ⟨pre,post,hsplit⟩ := append_of_mem hct
  have hlinked := hv.linked
  rw [hsplit,hv.genesis] at hlinked
  refine ⟨pre ++ [ct],post,by simp [hsplit],?_,?_,?_⟩
  · have hposition : ct.chainSeq = 0+pre.length+1 := (linked_append.mp hlinked).2.1
    simp only [length_append,length_singleton,cast_add,cast_one]
    omega
  · rw [append_cons] at hlinked
    exact (linked_append.mp hlinked).1
  · rw [headOf_concat,hhash]
    rfl

/-- Two verified snapshots with a common anchor have the same sealed rows up to it. -/
theorem anchored_prefix_immutable (clock : Clock) (sha : Digest) (db db' : ChainDatabase clock)
    (anchors anchors' : List ChainCheckpoint) (anchor : ChainCheckpoint) (hanchor : anchor ∈ anchors) (hanchor' : anchor ∈ anchors')
    (hversions : ∀ ct ∈ db.chainedTransactions, ct.canonicalVersion = 2 ∨ ct.canonicalVersion = 3)
    (hversions' : ∀ ct ∈ db'.chainedTransactions, ct.canonicalVersion = 2 ∨ ct.canonicalVersion = 3)
    (hverified : (db.verifyChainSnapshotWithAnchors sha anchors).verified = true)
    (hverified' : (db'.verifyChainSnapshotWithAnchors sha anchors').verified = true)
    (hfree : NoCollisions sha (db.hashedInputs ++ db'.hashedInputs)) :
    ∃ n : ℕ, anchor.sequence = n ∧ n ≤ db.chainedTransactions.length ∧ n ≤ db'.chainedTransactions.length ∧
      List.Forall₂ SealedAlike (db.chainedTransactions.take n) (db'.chainedTransactions.take n) := by
  obtain ⟨pre,post,hsplit,hlength,hlinked,hhead⟩ := (verified_iff.mp hverified).anchored hanchor
  obtain ⟨pre',post',hsplit',hlength',hlinked',hhead'⟩ := (verified_iff.mp hverified').anchored hanchor'
  have hn : pre.length = pre'.length := by omega
  refine ⟨pre.length,hlength.symm,by simp [hsplit],by simp [hsplit',hn],?_⟩
  rw [hsplit,take_left' rfl,hsplit',take_left' hn.symm]
  refine (agree_of_head (fun a ha b hb havalid hbvalid hseq hhash => ?_) hn hlinked hlinked' (hhead.trans hhead'.symm)).2
  have ha : a ∈ db.chainedTransactions := hsplit ▸ mem_append_left _ ha
  have hb : b ∈ db'.chainedTransactions := hsplit' ▸ mem_append_left _ hb
  obtain ⟨x,hx,hxa⟩ := exists_canonical havalid
  obtain ⟨y,hy,hyb⟩ := exists_canonical hbvalid
  obtain rfl : x = y := hfree x (mem_append_left _ (mem_filterMap.mpr ⟨a,ha,hx⟩)) y
    (mem_append_right _ (mem_filterMap.mpr ⟨b,hb,hy⟩)) (hxa.trans (hhash.trans hyb.symm))
  obtain ⟨hprev,hversion,hsecond,hthird⟩ := canonical_injective hx hy (hversions a ha) (hversions' b hb)
  exact ⟨hprev,hversion,hseq,hprev,hhash,hsecond,hthird⟩

/-! A run with a checksum in place of the hash. -/

def hexDigit (n : ℕ) : UInt8 := if n < 10 then UInt8.ofNat (48+n) else UInt8.ofNat (87+n)

theorem isHexDigit_hexDigit {n : ℕ} (h : n < 16) : isHexDigit (hexDigit n) = true := by
  interval_cases n <;> rfl

def checksum : Digest where
  sum x := (List.range 64).map fun i => hexDigit ((x.map UInt8.toNat).sum / 16^i % 16)
  hex x := by
    refine ⟨by simp,fun b hb => ?_⟩
    obtain ⟨i,-,rfl⟩ := mem_map.mp hb
    exact isHexDigit_hexDigit (mod_lt _ (by decide))

def tickClock : Clock where
  Time := ℕ
  decEq := inferInstance
  before t u := t < u
  text t := List.replicate (t+1) 46
  nonempty _ := cons_ne_nil _ _

def depositRow (id : ℕ) (txn amount : String) (createdAt : ℕ) : StoredTransaction tickClock where
  id := id
  columns := ⟨[],[],[],[],none,[],ascii "1",ascii "1",[],none,ascii txn,ascii "@World",ascii "bln_1",
    ascii amount,ascii amount,ascii "USD",ascii "APPLIED",ascii txn,createdAt⟩
  uncovered := []
  chain := none

def sealedOnce : ChainDatabase tickClock := (init tickClock).run checksum [.insert (depositRow 2 "txn_a" "5" 1),.sealing (3 : ℕ) 10]

/-- A deposit with a lower identifier commits late and is sealed in a second pass, before a third deposit arrives. -/
def sealedTwice : ChainDatabase tickClock := sealedOnce.run checksum
  [.insert (depositRow 1 "txn_b" "7" 1),.sealing (3 : ℕ) 10,.insert (depositRow 3 "txn_c" "9" 2)]

def firstAnchor : ChainCheckpoint := ⟨1,1,checksum.sum ((canonicalChainV3 chainGenesisHash (depositRow 2 "txn_a" "5" 1).chainRow).getD [])⟩

theorem sealed_states_agree : ∃ n : ℕ, firstAnchor.sequence = n ∧ n ≤ sealedOnce.chainedTransactions.length ∧
    n ≤ sealedTwice.chainedTransactions.length ∧
    List.Forall₂ SealedAlike (sealedOnce.chainedTransactions.take n) (sealedTwice.chainedTransactions.take n) :=
  anchored_prefix_immutable tickClock checksum sealedOnce sealedTwice [firstAnchor] [firstAnchor] firstAnchor
    (mem_singleton_self _) (mem_singleton_self _) (by decide +kernel) (by decide +kernel) (by decide +kernel)
    (by decide +kernel) (by unfold NoCollisions; decide +kernel)

end LedgerForge.Chain
