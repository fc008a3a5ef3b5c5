import Mathlib.Algebra.Order.Monoid.Prod
import LedgerForge.Engine.HoldAccounting
import LedgerForge.Library.Windows

/-! # Balances at a point in time

A balance at a time is computed from the latest snapshot and the rows dated after it, or from all rows. A snapshot
counts what was posted before it was taken, so the two agree in every state of a history exactly when no posting
crosses a snapshot. Times count microseconds from the zero time.
-/

namespace LedgerForge

/-- The two time columns of a stored row. -/
structure Stamp where
  createdAt : ℤ
  effectiveDate : Option ℤ
deriving DecidableEq

def Stamp.date (s : Stamp) : ℤ := s.effectiveDate.getD s.createdAt

/-- A request without an effective date is effective when it is created. -/
def Stamp.requested (now : ℤ) (effectiveDate : Option ℤ) : Stamp := ⟨now,some (effectiveDate.getD now)⟩

def Stamp.committed (now : ℤ) (hold : Stamp) : Stamp := ⟨now,some (hold.effectiveDate.getD now)⟩

structure Snapshot where
  balanceID : String
  credit : ℤ
  debit : ℤ
  time : ℤ
deriving DecidableEq

/-- The engine, the times of its rows in order, and the snapshots. -/
structure History where
  engine : Engine
  stamps : List Stamp
  snapshots : List Snapshot

structure BalanceAtTime where
  balanceID : String
  balance : ℤ
  credit : ℤ
  debit : ℤ
  currency : String
deriving DecidableEq

abbrev DatedRow := Row × Stamp

def day : ℤ := 86400000000

namespace History

def empty : History := ⟨.empty,[],[]⟩

variable (h : History)

def rows : List DatedRow := h.engine.database.transactions.zip h.stamps

/-- Credit, debit and time of the latest snapshot up to the target, or zeros at the zero time. -/
def getMostRecentSnapshot (id : String) (target : ℤ) : ℤ × ℤ × ℤ :=
  match ((h.snapshots.filter fun s => s.balanceID = id ∧ s.time ≤ target).insertionSort fun s t => t.time ≤ s.time).head? with
  | some s => (s.credit,s.debit,s.time)
  | none => (0,0,0)

def fetchTransactions (id : String) (start target : ℤ) : List DatedRow :=
  (h.rows.filter fun x => (x.1.source = id ∨ x.1.destination = id) ∧ start < x.2.date ∧ x.2.date ≤ target ∧
    x.1.status = .applied).insertionSort fun x y => x.2.date ≤ y.2.date

def applyTransaction (id : String) (totals : ℤ × ℤ) (x : DatedRow) : Except String (ℤ × ℤ) :=
  match x.1.preciseAmount with
  | none => .error "Failed to scan transaction"
  | some amount => .ok (if x.1.destination = id then totals.1+amount else totals.1,if x.1.source = id then totals.2+amount else totals.2)

def calculateBalanceFromTransactions (id : String) (start target : ℤ) (initial : ℤ × ℤ) : Except String (ℤ × ℤ) :=
  (h.fetchTransactions id start target).foldlM (applyTransaction id) initial

def getBalanceAtTime (id : String) (target : ℤ) (fromSource : Bool) : Except String BalanceAtTime :=
  if id = "" then .error "Balance ID cannot be empty"
  else if target = 0 then .error "Target time cannot be zero"
  else match h.engine.database.findBalance id with
    | none => .error ("Balance '" ++ id ++ "' not found")
    | some c => do
      let start := if fromSource then (0,0,0) else h.getMostRecentSnapshot id target
      let totals ← h.calculateBalanceFromTransactions id start.2.2 target (start.1,start.2.1)
      .ok ⟨id,totals.1-totals.2,totals.1,totals.2,c.value.currency⟩

def snapshotToday (now : ℤ) (id : String) : Bool := h.snapshots.any fun s => s.balanceID = id && s.time/day = now/day

/-- One batch: the next balances that have no snapshot of the day, with their counters as they stand. -/
def snapshotBatch (now : ℤ) (last size : ℕ) : List Snapshot :=
  (((h.engine.database.balances.drop last).filter fun c => !h.snapshotToday now c.key).take size).map fun c =>
    ⟨c.key,c.value.counters.credit,c.value.counters.debit,now⟩

def insertSnapshots (taken : List Snapshot) : History := { h with snapshots := h.snapshots ++ taken }

/-- The loop over the batches. It ends with an empty batch or with the last balance. -/
def snapshotLoop (now : ℤ) (size : ℕ) : ℕ → ℕ → History → History
  | 0, _, h => h
  | fuel+1, last, h =>
    let taken := h.snapshotBatch now last size
    let last' := min (last+size) h.engine.database.balances.length
    if taken = [] ∨ h.engine.database.balances.length ≤ last' then h.insertSnapshots taken
    else snapshotLoop now size fuel last' (h.insertSnapshots taken)

def takeDailyBalanceSnapshotsBatched (now : ℤ) (size : ℕ) : History :=
  snapshotLoop now size (h.engine.database.balances.length+1) 0 h

end History

/-- An operation of the engine whose new rows get their times, or one batch of snapshots. Other operations may run
between the batches of one pass. -/
inductive HistoryEvent
  | operation (op : Engine.Operation) (stamp : Row → Stamp)
  | snapshots (now : ℤ) (last size : ℕ)

namespace History

def newRows (h : History) (op : Engine.Operation) : List Row :=
  (h.engine.step op).database.transactions.drop h.engine.database.transactions.length

def step (h : History) : HistoryEvent → History
  | .operation op stamp => ⟨h.engine.step op,h.stamps ++ (h.newRows op).map stamp,h.snapshots⟩
  | .snapshots now last size => if 0 < now then h.insertSnapshots (h.snapshotBatch now last size) else h

def run (h : History) (events : List HistoryEvent) : History := events.foldl step h

end History

end LedgerForge

namespace LedgerForge.History

open VersionedStore Windows List

def dated (x : DatedRow) : ℤ := x.2.date

def Touches (id : String) (x : DatedRow) : Prop := x.1.status = .applied ∧ (x.1.source = id ∨ x.1.destination = id)
deriving Decidable

def posted (id : String) (x : DatedRow) : ℤ × ℤ :=
  if x.1.status = .applied then (if x.1.destination = id then x.1.minor else 0,if x.1.source = id then x.1.minor else 0) else 0

variable {id : String} {x : DatedRow}

theorem posted_of_not_touches (h : ¬ Touches id x) : posted id x = 0 := by
  unfold posted
  split
  · rename_i happlied
    have hends : ¬ (x.1.source = id ∨ x.1.destination = id) := fun he => h ⟨happlied,he⟩
    rw [not_or] at hends
    rw [if_neg hends.1,if_neg hends.2]
    rfl
  · rfl

theorem posted_pos (hminor : 0 < x.1.minor) (h : Touches id x) : 0 < posted id x := by
  have hle : 0 ≤ posted id x := by
    unfold posted
    rw [if_pos h.1]
    constructor <;> simp only <;> split <;> simp [hminor.le]
  refine lt_of_le_of_ne hle fun hzero => ?_
  unfold posted at hzero
  rw [if_pos h.1] at hzero
  obtain ⟨hcredit,hdebit⟩ := Prod.ext_iff.mp hzero
  rcases h.2 with hs | hd
  · simp only [if_pos hs,Prod.snd_zero] at hdebit
    omega
  · simp only [if_pos hd,Prod.fst_zero] at hcredit
    omega

def settled (c : Counters) : ℤ × ℤ := (c.credit,c.debit)

theorem settled_add (a b : Counters) : settled (a+b) = settled a+settled b := rfl

theorem settled_sides (m : Movement) (a : ℤ) (s d : Prop) [Decidable s] [Decidable d] :
    settled ((if s then m.debitSide a else 0)+(if d then m.creditSide a else 0)) =
      if m = .plain ∨ m = .commit then (if d then a else 0,if s then a else 0) else 0 := by
  cases m <;> by_cases hs : s <;> by_cases hd : d <;> simp [hs,hd,settled,Movement.debitSide,Movement.creditSide]

theorem posted_eq_delta (id : String) (x : DatedRow) : posted id x = settled (x.1.delta id) := by
  unfold posted Row.delta
  by_cases happlied : x.1.status = .applied
  · have hmovement : ∃ m, x.1.movement = some m ∧ (m = .plain ∨ m = .commit) := by
      rw [Row.movement,happlied]
      by_cases hcommit : x.1.queueAction = .commit
      · exact ⟨.commit,if_pos hcommit,.inr rfl⟩
      · exact ⟨.plain,if_neg hcommit,.inl rfl⟩
    obtain ⟨m,hm,hsettles⟩ := hmovement
    rw [hm,if_pos happlied]
    rw [settled_sides,if_pos hsettles]
    rfl
  · rw [if_neg happlied]
    cases hm : x.1.movement with
    | none => rfl
    | some m =>
      rw [settled_sides,if_neg]
      rintro (rfl | rfl) <;> unfold Row.movement at hm <;> split at hm <;> simp_all

structure Kept (h : History) : Prop where
  sound : h.engine.Sound
  aligned : h.stamps.length = h.engine.database.transactions.length
  positive : ∀ s ∈ h.snapshots, 0 < s.time
  stored : ∀ s ∈ h.snapshots, s.balanceID ∈ h.engine.database.balances.map Cell.key
  daily : ∀ s ∈ h.snapshots, ∀ t ∈ h.snapshots, s.balanceID = t.balanceID → s.time/day = t.time/day → s = t

variable {h : History}

theorem mem_rows (hx : x ∈ h.rows) : x.1 ∈ h.engine.database.transactions := (of_mem_zip hx).1

theorem Kept.pos (hk : Kept h) (hx : x ∈ h.rows) (ht : Touches id x) : 0 < posted id x := by
  apply posted_pos _ ht
  have hrow := hk.sound.rows x.1 (mem_rows hx)
  apply hrow.posted
  · rintro (hs | hs) <;> rw [ht.1] at hs <;> cases hs
  · rw [ht.1]
    nofun

theorem Kept.counters (hk : Kept h) {c : StoredBalance} (hc : h.engine.database.findBalance id = some c) :
    settled c.value.counters = (h.rows.map (posted id)).sum := by
  have hfst : h.rows.map Prod.fst = h.engine.database.transactions := map_fst_zip hk.aligned.ge
  rw [hk.sound.accounted.replayed id c hc,replay_eq_sum,← hfst,map_map]
  induction h.rows with
  | nil => rfl
  | cons x l ih => rw [map_cons,map_cons,sum_cons,settled_add,ih,posted_eq_delta]; rfl

theorem foldlM_applyTransaction {l : List DatedRow} (hl : ∀ x ∈ l, x.1.status = .applied ∧ ∃ a, x.1.preciseAmount = some a)
    (initial : ℤ × ℤ) : l.foldlM (applyTransaction id) initial = .ok (initial+(l.map (posted id)).sum) := by
  induction l generalizing initial with
  | nil =>
    rw [map_nil,sum_nil,add_zero]
    rfl
  | cons x l ih =>
    obtain ⟨happlied,a,ha⟩ := hl x mem_cons_self
    have hx : applyTransaction id initial x = .ok (initial+posted id x) := by
      unfold applyTransaction posted
      rw [Row.minor,ha]
      simp only [Option.getD_some]
      congr 1
      ext
      · split <;> simp
      · simp only [Prod.snd_add]
        split <;> simp
    rw [foldlM_cons,hx]
    change l.foldlM (applyTransaction id) (initial+posted id x) = _
    rw [ih (fun y hy => hl y (mem_cons_of_mem _ hy)),map_cons,sum_cons,add_assoc]

theorem Kept.calculate (hk : Kept h) (id : String) (start target : ℤ) (initial : ℤ × ℤ) :
    h.calculateBalanceFromTransactions id start target initial = .ok (initial+window dated (posted id) start target h.rows) := by
  unfold calculateBalanceFromTransactions fetchTransactions
  rw [foldlM_applyTransaction]
  · rw [((perm_insertionSort _ _).map _).sum_eq,Sums.sum_filter]
    congr 2
    refine congrArg List.sum (map_congr_left fun x _ => ?_)
    by_cases ht : Touches id x
    · refine if_congr ?_ rfl rfl
      exact ⟨fun hx => ⟨hx.2.1,hx.2.2.1⟩,fun hx => ⟨ht.2,hx.1,hx.2,ht.1⟩⟩
    · rw [posted_of_not_touches ht,ite_self,ite_self]
  · intro x hx
    have hmem := mem_filter.mp ((mem_insertionSort _).mp hx)
    have happlied : x.1.status = .applied := (of_decide_eq_true hmem.2).2.2.2
    exact ⟨happlied,(hk.sound.rows x.1 (mem_rows hmem.1)).amount⟩

def Agrees (h : History) : Prop := ∀ id target, h.getBalanceAtTime id target false = h.getBalanceAtTime id target true

def Exact (h : History) (s : Snapshot) : Prop := (s.credit,s.debit) = window dated (posted s.balanceID) 0 s.time h.rows

/-- The most recent snapshot is one of those up to the target, and none of them is later. -/
theorem mostRecent_cases (h : History) (id : String) (target : ℤ) :
    (h.getMostRecentSnapshot id target = (0,0,0) ∧ ∀ s ∈ h.snapshots, s.balanceID = id → target < s.time) ∨
    ∃ s ∈ h.snapshots, s.balanceID = id ∧ s.time ≤ target ∧ h.getMostRecentSnapshot id target = (s.credit,s.debit,s.time) ∧
      ∀ t ∈ h.snapshots, t.balanceID = id → t.time ≤ target → t.time ≤ s.time := by
  set l := h.snapshots.filter fun s => s.balanceID = id ∧ s.time ≤ target with hl
  have hmem : ∀ s, s ∈ l ↔ s ∈ h.snapshots ∧ s.balanceID = id ∧ s.time ≤ target := fun s => by
    rw [mem_filter,decide_eq_true_iff]
  have hsorted := pairwise_insertionSort (fun s t : Snapshot => t.time ≤ s.time) l
  have hperm := perm_insertionSort (fun s t : Snapshot => t.time ≤ s.time) l
  unfold getMostRecentSnapshot
  cases hsort : l.insertionSort fun s t => t.time ≤ s.time with
  | nil =>
    left
    refine ⟨rfl,fun s hs hid => not_le.mp fun hle => ?_⟩
    rw [hsort] at hperm
    have := (hmem s).mpr ⟨hs,hid,hle⟩
    rw [hperm.symm.eq_nil] at this
    exact absurd this not_mem_nil
  | cons s rest =>
    right
    rw [hsort] at hsorted hperm
    obtain ⟨hs,hid,hle⟩ := (hmem s).mp (hperm.mem_iff.mp mem_cons_self)
    refine ⟨s,hs,hid,hle,rfl,fun t ht htid htle => ?_⟩
    rcases mem_cons.mp (hperm.mem_iff.mpr ((hmem t).mpr ⟨ht,htid,htle⟩)) with rfl | hrest
    · exact le_refl _
    · exact rel_of_pairwise_cons hsorted hrest

def answer (id currency : String) (totals : ℤ × ℤ) : BalanceAtTime := ⟨id,totals.1-totals.2,totals.1,totals.2,currency⟩

theorem answer_inj {currency : String} {a b : ℤ × ℤ} : answer id currency a = answer id currency b ↔ a = b := by
  constructor
  · intro h
    exact Prod.ext (congrArg BalanceAtTime.credit h) (congrArg BalanceAtTime.debit h)
  · rintro rfl
    rfl

theorem Kept.balanceAtTime (hk : Kept h) (hid : id ≠ "") {target : ℤ} (htarget : target ≠ 0) {c : StoredBalance}
    (hc : h.engine.database.findBalance id = some c) {fromSource : Bool} {start : ℤ × ℤ × ℤ}
    (hstart : (if fromSource then (0,0,0) else h.getMostRecentSnapshot id target) = start) :
    h.getBalanceAtTime id target fromSource =
      .ok (answer id c.value.currency ((start.1,start.2.1)+window dated (posted id) start.2.2 target h.rows)) := by
  unfold getBalanceAtTime
  rw [if_neg hid,if_neg htarget,hc]
  simp only [hstart]
  rw [hk.calculate]
  rfl

/-- A state agrees exactly when its snapshots are exact. -/
theorem Kept.agrees_iff (hk : Kept h) : Agrees h ↔ ∀ s ∈ h.snapshots, s.balanceID ≠ "" → Exact h s := by
  have hat : ∀ id target, id ≠ "" → target ≠ 0 → ∀ c, h.engine.database.findBalance id = some c →
      ∀ s ∈ h.snapshots, s.balanceID = id → s.time ≤ target → h.getMostRecentSnapshot id target = (s.credit,s.debit,s.time) →
      (h.getBalanceAtTime id target false = h.getBalanceAtTime id target true ↔ Exact h s) := by
    intro id target hid htarget c hc s hs hsid hle hrecent
    have hsnapshot : (if false = true then (0,0,0) else h.getMostRecentSnapshot id target) = (s.credit,s.debit,s.time) := hrecent
    rw [hk.balanceAtTime hid htarget hc hsnapshot,hk.balanceAtTime hid htarget hc (if_pos rfl),Except.ok.injEq,answer_inj,Exact,
      hsid,Prod.mk_zero_zero,zero_add]
    exact restart_iff (hk.positive s hs).le hle _
  constructor
  · intro hagrees s hs hid
    obtain ⟨c,hc⟩ := Keyed.exists_find (hk.stored s hs)
    have hpositive := hk.positive s hs
    rcases mostRecent_cases h s.balanceID s.time with ⟨-,hlater⟩ | ⟨t,ht,htid,htle,hrecent,hmax⟩
    · exact absurd (hlater s hs rfl) (lt_irrefl _)
    have htime : t.time = s.time := le_antisymm htle (hmax s hs rfl (le_refl _))
    obtain rfl := hk.daily t ht s hs htid (by rw [htime])
    exact (hat _ _ hid hpositive.ne' c hc t ht rfl (le_refl _) hrecent).mp (hagrees _ _)
  · intro hexact id target
    by_cases hid : id = ""
    · unfold getBalanceAtTime
      rw [if_pos hid,if_pos hid]
    by_cases htarget : target = 0
    · unfold getBalanceAtTime
      rw [if_neg hid,if_neg hid,if_pos htarget,if_pos htarget]
    cases hc : h.engine.database.findBalance id with
    | none =>
      unfold getBalanceAtTime
      rw [if_neg hid,if_neg hid,if_neg htarget,if_neg htarget,hc]
    | some c =>
      rcases mostRecent_cases h id target with ⟨hnone,-⟩ | ⟨s,hs,hsid,hle,hrecent,-⟩
      · have hstart : (if false = true then (0,0,0) else h.getMostRecentSnapshot id target) = (0,0,0) := hnone
        rw [hk.balanceAtTime hid htarget hc hstart,hk.balanceAtTime hid htarget hc (if_pos rfl)]
      · exact (hat id target hid htarget c hc s hs hsid hle hrecent).mpr (hexact s hs (hsid ▸ hid))

theorem balances_step {e : Engine} (hs : e.Sound) (op : Engine.Operation) (hid : id ∈ e.database.balances.map Cell.key) :
    id ∈ (e.step op).database.balances.map Cell.key := by
  cases Engine.step_ok hs op with
  | created name currency created =>
    rw [created]
    unfold Database.createBalance
    split
    · exact hid
    · rw [map_append]
      exact mem_append_left _ hid
  | appended rs appended _ => exact appended.posted.keys ▸ hid

theorem newRows_spec (hs : h.engine.Sound) (op : Engine.Operation) :
    (h.engine.step op).database.transactions = h.engine.database.transactions ++ h.newRows op := by
  obtain ⟨rs,hrs⟩ := (Engine.step_ok hs op).rows
  rw [newRows,← hrs,drop_left]

def newDated (h : History) (op : Engine.Operation) (stamp : Row → Stamp) : List DatedRow := (h.newRows op).map fun r => (r,stamp r)

theorem Kept.rows_operation (hk : Kept h) (op : Engine.Operation) (stamp : Row → Stamp) :
    (h.step (.operation op stamp)).rows = h.rows ++ h.newDated op stamp := by
  have hzip : (h.newRows op).zip ((h.newRows op).map stamp) = h.newDated op stamp := by
    unfold newDated
    induction h.newRows op with
    | nil => rfl
    | cons r rs ih => rw [map_cons,zip_cons_cons,map_cons,ih]
  change (h.engine.step op).database.transactions.zip (h.stamps ++ (h.newRows op).map stamp) = _
  rw [newRows_spec hk.sound,zip_append hk.aligned.symm,hzip]
  rfl

theorem Kept.operation (hk : Kept h) (op : Engine.Operation) (stamp : Row → Stamp) : Kept (h.step (.operation op stamp)) where
  sound := (Engine.step_ok hk.sound op).sound hk.sound
  aligned := by
    change (h.stamps ++ (h.newRows op).map stamp).length = (h.engine.step op).database.transactions.length
    rw [newRows_spec hk.sound,length_append,length_append,length_map,hk.aligned]
  positive := hk.positive
  stored s hs := balances_step hk.sound op (hk.stored s hs)
  daily := hk.daily

variable {now : ℤ} {s : Snapshot}

theorem mem_snapshotBatch {last size : ℕ} (hs : s ∈ h.snapshotBatch now last size) :
    ∃ c ∈ h.engine.database.balances, h.snapshotToday now c.key = false ∧
      s = ⟨c.key,c.value.counters.credit,c.value.counters.debit,now⟩ := by
  obtain ⟨c,hc,rfl⟩ := mem_map.mp hs
  obtain ⟨hmem,htoday⟩ := mem_filter.mp (mem_of_mem_take hc)
  exact ⟨c,mem_of_mem_drop hmem,by simpa using htoday,rfl⟩

theorem Kept.insertSnapshots (hk : Kept h) (hnow : 0 < now) (last size : ℕ) :
    Kept (h.insertSnapshots (h.snapshotBatch now last size)) where
  sound := hk.sound
  aligned := hk.aligned
  positive := by
    refine forall_mem_append.mpr ⟨hk.positive,fun s hs => ?_⟩
    obtain ⟨c,-,-,rfl⟩ := mem_snapshotBatch hs
    exact hnow
  stored := by
    refine forall_mem_append.mpr ⟨hk.stored,fun s hs => ?_⟩
    obtain ⟨c,hc,-,rfl⟩ := mem_snapshotBatch hs
    exact mem_map_of_mem hc
  daily := by
    -- a batch leaves out the balances that have a snapshot of the day
    have hapart : ∀ s ∈ h.snapshots, ∀ t ∈ h.snapshotBatch now last size, s.balanceID = t.balanceID → s.time/day ≠ t.time/day := by
      intro s hs t ht hid hday
      obtain ⟨c,-,htoday,rfl⟩ := mem_snapshotBatch ht
      have hnot := any_eq_false.mp htoday s hs
      simp only [hid,hday,decide_true,Bool.and_self,not_true_eq_false] at hnot
    intro s hs t ht hid hday
    rcases mem_append.mp hs with hs | hs <;> rcases mem_append.mp ht with ht | ht
    · exact hk.daily s hs t ht hid hday
    · exact absurd hday (hapart s hs t ht hid)
    · exact absurd hday.symm (hapart t ht s hs hid.symm)
    · obtain ⟨c,hc,-,rfl⟩ := mem_snapshotBatch hs
      obtain ⟨c',hc',-,rfl⟩ := mem_snapshotBatch ht
      obtain rfl := inj_on_of_nodup_map hk.sound.accounted.unique hc hc' hid
      rfl

/-- What an event must respect. New rows are dated after the snapshots of their balances (or before the zero time),
and a snapshot is taken when everything that it counts is dated up to it. -/
def Permitted (h : History) : HistoryEvent → Prop
  | .operation op stamp => ∀ r ∈ h.newRows op, r.status = .applied → ∀ s ∈ h.snapshots, s.balanceID ≠ "" →
      r.source = s.balanceID ∨ r.destination = s.balanceID → ¬ (0 < (stamp r).date ∧ (stamp r).date ≤ s.time)
  | .snapshots now last size => 0 < now → ∀ s ∈ h.snapshotBatch now last size, s.balanceID ≠ "" → ∀ x ∈ h.rows,
      x.1.status = .applied → x.1.source = s.balanceID ∨ x.1.destination = s.balanceID → 0 < x.2.date ∧ x.2.date ≤ now

theorem Kept.step (hk : Kept h) (e : HistoryEvent) : Kept (h.step e) := by
  cases e with
  | operation op stamp => exact hk.operation op stamp
  | snapshots now last size =>
    unfold History.step
    simp only
    split
    · rename_i hnow
      exact hk.insertSnapshots hnow last size
    · exact hk

theorem Kept.exact_operation (hk : Kept h) (op : Engine.Operation) (stamp : Row → Stamp) (hexact : Exact h s) :
    Exact (h.step (.operation op stamp)) s ↔
      ∀ x ∈ h.newDated op stamp, Touches s.balanceID x → ¬ Within dated 0 s.time x := by
  have hnew : ∀ x ∈ h.newDated op stamp, x ∈ (h.step (.operation op stamp)).rows := fun x hx => by
    rw [hk.rows_operation]
    exact mem_append_right _ hx
  unfold Exact at hexact ⊢
  rw [hk.rows_operation,window_append,← hexact,left_eq_add]
  exact window_eq_zero (fun x hx => (hk.operation op stamp).pos (hnew x hx)) fun x _ => posted_of_not_touches

theorem Kept.exact_snapshot (hk : Kept h) {last size : ℕ} (hs : s ∈ h.snapshotBatch now last size) :
    Exact h s ↔ ∀ x ∈ h.rows, Touches s.balanceID x → Within dated 0 now x := by
  obtain ⟨c,hc,-,rfl⟩ := mem_snapshotBatch hs
  have hcounters := hk.counters (Engine.mem_balances_iff hk.sound.accounted.unique |>.mp hc)
  unfold Exact
  rw [← settled,hcounters]
  exact window_eq_total (fun x hx => hk.pos hx) fun x _ => posted_of_not_touches

theorem Kept.agrees_step (hk : Kept h) (hagrees : Agrees h) (e : HistoryEvent) : Agrees (h.step e) ↔ Permitted h e := by
  have hexact := hk.agrees_iff.mp hagrees
  rw [(hk.step e).agrees_iff]
  cases e with
  | operation op stamp =>
    constructor
    · intro hnext r hr happlied s hs hid hends
      exact (hk.exact_operation op stamp (hexact s hs hid)).mp (hnext s hs hid) (r,stamp r) (mem_map_of_mem hr) ⟨happlied,hends⟩
    · intro hpermitted s hs hid
      refine (hk.exact_operation op stamp (hexact s hs hid)).mpr fun x hx ht => ?_
      obtain ⟨r,hr,rfl⟩ := mem_map.mp hx
      exact hpermitted r hr ht.1 s hs hid ht.2
  | snapshots now last size =>
    by_cases hnow : 0 < now
    · have hstep : h.step (.snapshots now last size) = h.insertSnapshots (h.snapshotBatch now last size) := if_pos hnow
      rw [hstep]
      constructor
      · intro hnext _ s hs hid x hx happlied hends
        exact (hk.exact_snapshot hs).mp (hnext s (mem_append_right _ hs) hid) x hx ⟨happlied,hends⟩
      · intro hpermitted
        refine forall_mem_append.mpr ⟨hexact,fun s hs hid => ?_⟩
        exact (hk.exact_snapshot hs).mpr fun x hx ht => hpermitted hnow s hs hid x hx ht.1 ht.2
    · have hstep : h.step (.snapshots now last size) = h := if_neg hnow
      rw [hstep]
      exact ⟨fun _ hpos => absurd hpos hnow,fun _ => hexact⟩

theorem kept_empty : Kept empty := ⟨Engine.empty_sound,rfl,nofun,nofun,nofun⟩

theorem Kept.run (hk : Kept h) (events : List HistoryEvent) : Kept (h.run events) := by
  induction events generalizing h with
  | nil => exact hk
  | cons e events ih => exact ih (hk.step e)

theorem run_concat (h : History) (events : List HistoryEvent) (e : HistoryEvent) : h.run (events ++ [e]) = (h.run events).step e := by
  rw [run,foldl_append]
  rfl

/-- Both computations agree at every moment of a history exactly when every event is permitted. -/
theorem snapshots_agree_iff (events : List HistoryEvent) :
    (∀ past, past <+: events → ∀ id target, (empty.run past).getBalanceAtTime id target false =
      (empty.run past).getBalanceAtTime id target true) ↔
    ∀ past e, past ++ [e] <+: events → Permitted (empty.run past) e := by
  constructor
  · intro hagrees past e hpast
    have hbefore : Agrees (empty.run past) := hagrees past ((prefix_append past [e]).trans hpast)
    rw [← (kept_empty.run past).agrees_step hbefore e,← run_concat]
    exact hagrees _ hpast
  · intro hpermitted past
    -- the past grows event by event, each of them from a state that agrees
    induction past using List.reverseRecOn with
    | nil =>
      intro _
      exact kept_empty.agrees_iff.mpr nofun
    | append_singleton past e ih =>
      intro hpast
      have hbefore : Agrees (empty.run past) := ih ((prefix_append past [e]).trans hpast)
      rw [run_concat]
      exact ((kept_empty.run past).agrees_step hbefore e).mpr (hpermitted past e hpast)

theorem snapshotLoop_batches (hnow : 0 < now) (size fuel last : ℕ) (h : History) :
    ∃ events, (∀ e ∈ events, ∃ n, e = .snapshots now n size) ∧ snapshotLoop now size fuel last h = h.run events := by
  induction fuel generalizing last h with
  | zero =>
    refine ⟨[],fun e he => absurd he not_mem_nil,?_⟩
    rfl
  | succ fuel ih =>
    have hstep : h.step (.snapshots now last size) = h.insertSnapshots (h.snapshotBatch now last size) := if_pos hnow
    rw [snapshotLoop]
    rw [← hstep]
    split
    · refine ⟨[.snapshots now last size],?_,rfl⟩
      exact forall_mem_singleton.mpr ⟨last,rfl⟩
    · obtain ⟨events,hevents,hrun⟩ := ih (min (last+size) h.engine.database.balances.length) (h.step (.snapshots now last size))
      exact ⟨.snapshots now last size :: events,forall_mem_cons.mpr ⟨⟨last,rfl⟩,hevents⟩,hrun⟩

theorem snapshotPass_batches (hnow : 0 < now) (size : ℕ) (h : History) :
    ∃ events, (∀ e ∈ events, ∃ n, e = .snapshots now n size) ∧ h.takeDailyBalanceSnapshotsBatched now size = h.run events :=
  snapshotLoop_batches hnow size _ 0 h

/-- A hold of the first day, a snapshot of the second, and a commit on the third that keeps the date of the hold. -/
def lateCommit : List HistoryEvent :=
  (Engine.heldFunds.map fun op => .operation op fun _ => .requested 10 none) ++ [.snapshots (2*day) 0 10,
    .operation (.commit "txn_1" (some 100) "c" "txn_3" none) fun _ => .committed (3*day) (.requested 10 none)]

/-- The snapshot path misses the commit: it was posted after the snapshot and is dated before it. -/
theorem late_commit_missed : (empty.run lateCommit).getBalanceAtTime "bln_b" (4*day) false = .ok ⟨"bln_b",0,0,0,"USD"⟩ ∧
    (empty.run lateCommit).getBalanceAtTime "bln_b" (4*day) true = .ok ⟨"bln_b",100,100,0,"USD"⟩ := by
  decide +kernel

end LedgerForge.History
