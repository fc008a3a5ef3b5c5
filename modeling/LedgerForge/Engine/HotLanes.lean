import Mathlib.Tactic

/-! # Lanes of contended pairs

Intents between one source and one destination in one currency wait in one of two lanes. The lane follows a state that is kept
under a key of the pair; the state changes when an intent is assigned and the lane it leaves has been counted empty.
-/

namespace LedgerForge.HotLanes

open Function List

inductive Lane
  | normal
  | hot
deriving DecidableEq

inductive PairState
  | normal
  | promoting
  | hot
  | coolingDown
deriving DecidableEq

structure Pair where
  source : String
  destination : String
  currency : String
deriving DecidableEq

/-- Pairs with an empty part have no key and stay in the normal lane. -/
def Pair.Keyed (pair : Pair) : Prop := pair.source ≠ "" ∧ pair.destination ≠ "" ∧ pair.currency ≠ ""
deriving Decidable

structure Manager where
  enabled : Bool
  threshold : ℕ
  toUpper : String → String

structure Intent where
  pair : Pair
  lane : Lane
deriving DecidableEq

/-- The entries of each key, and the queued intents that have no child yet. -/
structure LaneStore where
  state : String → PairState
  active : String → Bool
  contention : String → ℕ
  intents : List Intent

def LaneStore.init : LaneStore := ⟨fun _ => .normal,fun _ => false,fun _ => 0,[]⟩

def countQueuedTransactionsForPairLane (s : LaneStore) (pair : Pair) (lane : Lane) : ℕ :=
  s.intents.countP fun i => i.pair = pair && i.lane = lane

namespace Manager

variable (m : Manager) (s : LaneStore) (key : String) (pair : Pair)

def pairKey : String := pair.source ++ "|" ++ pair.destination ++ "|" ++ m.toUpper pair.currency

def recordContention : LaneStore :=
  if !m.enabled then s
  else
    let key := m.pairKey pair
    let count := s.contention key+1
    let s := { s with contention := update s.contention key count, active := update s.active key true }
    if count < m.threshold then s
    else if s.state key = .normal then { s with state := update s.state key .promoting }
    else s

def activateHot : LaneStore := { s with state := update s.state key .hot, active := update s.active key true }

def startCoolingDown : LaneStore := { s with state := update s.state key .coolingDown }

def setNormal : LaneStore :=
  { s with state := update s.state key .normal, active := update s.active key false, contention := update s.contention key 0 }

def resolveQueueLane : Lane × LaneStore :=
  if !m.enabled then (.normal,s)
  else
    let key := m.pairKey pair
    match s.state key with
    | .promoting =>
      if countQueuedTransactionsForPairLane s pair .normal = 0 then (.hot,activateHot s key) else (.normal,s)
    | .hot =>
      if s.active key then (.hot,s)
      else if 0 < countQueuedTransactionsForPairLane s pair .hot then (.hot,startCoolingDown s key)
      else (.normal,setNormal s key)
    | .coolingDown => if 0 < countQueuedTransactionsForPairLane s pair .hot then (.hot,s) else (.normal,setNormal s key)
    | .normal => (.normal,s)

def assignQueueLane : LaneStore :=
  let r := if pair.Keyed then m.resolveQueueLane s pair else (.normal,s)
  { r.2 with intents := r.2.intents ++ [⟨pair,r.1⟩] }

end Manager

inductive LaneEvent
  | assign (pair : Pair)
  | finish (position : ℕ)
  | contention (pair : Pair)
  | activityExpires (key : String)
  | contentionExpires (key : String)

namespace Manager

variable (m : Manager)

def step (s : LaneStore) : LaneEvent → LaneStore
  | .assign pair => m.assignQueueLane s pair
  | .finish position => { s with intents := s.intents.eraseIdx position }
  | .contention pair => m.recordContention s pair
  | .activityExpires key => { s with active := update s.active key false }
  | .contentionExpires key => { s with contention := update s.contention key 0 }

def run (es : List LaneEvent) : LaneStore := es.foldl m.step .init

/-- No pair has intents in both lanes. -/
def Exclusive (s : LaneStore) : Prop := ∀ i ∈ s.intents, ∀ j ∈ s.intents, i.pair.Keyed → j.pair.Keyed →
  m.pairKey i.pair = m.pairKey j.pair → i.lane = j.lane
deriving Decidable

/-- Pairs that share a key are the same. -/
def Aligned (pairs : List Pair) : Prop := ∀ p ∈ pairs, ∀ q ∈ pairs, m.pairKey p = m.pairKey q → p = q
deriving Decidable

/-- The lane of intents that are assigned in a state. -/
def laneOf (state : PairState) : Lane := if m.enabled ∧ (state = .hot ∨ state = .coolingDown) then .hot else .normal

structure Follows (pairs : List Pair) (s : LaneStore) : Prop where
  pairs : ∀ i ∈ s.intents, i.pair ∈ pairs
  lanes : ∀ i ∈ s.intents, i.pair.Keyed → i.lane = m.laneOf (s.state (m.pairKey i.pair))

variable {m} {s : LaneStore} {pair : Pair} {pairs : List Pair}

theorem Follows.exclusive (h : m.Follows pairs s) : m.Exclusive s := by
  intro i hi j hj hkeyed hkeyed' hsame
  rw [h.lanes i hi hkeyed,h.lanes j hj hkeyed',hsame]

theorem recordContention_keeps (m : Manager) (s : LaneStore) (pair : Pair) : (m.recordContention s pair).intents = s.intents ∧
    ∀ key, m.laneOf ((m.recordContention s pair).state key) = m.laneOf (s.state key) := by
  simp only [recordContention]
  split_ifs with hdisabled hcount hnormal
  · exact ⟨rfl,fun _ => rfl⟩
  · exact ⟨rfl,fun _ => rfl⟩
  · refine ⟨rfl,fun key => ?_⟩
    by_cases hkey : key = m.pairKey pair
    · subst hkey
      simp [laneOf,hnormal]
    · simp only [update_of_ne hkey]
  · exact ⟨rfl,fun _ => rfl⟩

/-- The lane given is that of the state left behind. The state goes to the other lane only if no intent of the pair waits
in the one it leaves. -/
def Resolves (m : Manager) (s : LaneStore) (pair : Pair) (r : Lane × LaneStore) : Prop :=
  ∃ state, r.1 = m.laneOf state ∧ r.2.intents = s.intents ∧ r.2.state = update s.state (m.pairKey pair) state ∧
    (m.laneOf (s.state (m.pairKey pair)) = m.laneOf state ∨
      countQueuedTransactionsForPairLane s pair (m.laneOf (s.state (m.pairKey pair))) = 0)

theorem resolveQueueLane_resolves (m : Manager) (s : LaneStore) (pair : Pair) : Resolves m s pair (m.resolveQueueLane s pair) := by
  have hstay : Resolves m s pair (m.laneOf (s.state (m.pairKey pair)),s) := ⟨_,rfl,rfl,(update_eq_self ..).symm,.inl rfl⟩
  by_cases henabled : m.enabled = true
  · have hhot : m.laneOf .hot = .hot ∧ m.laneOf .coolingDown = .hot := by simp [laneOf,henabled]
    have hnormal : m.laneOf .normal = .normal ∧ m.laneOf .promoting = .normal := by simp [laneOf]
    simp only [resolveQueueLane,henabled,Bool.not_true,Bool.false_eq_true,if_false]
    split <;> rename_i hstate <;> rw [hstate] at hstay
    · split_ifs with hcount
      · exact ⟨.hot,hhot.1.symm,rfl,rfl,.inr (by rwa [hstate,hnormal.2])⟩
      · exact hnormal.2 ▸ hstay
    · split_ifs with hactive hcount
      · exact hhot.1 ▸ hstay
      · exact ⟨.coolingDown,hhot.2.symm,rfl,rfl,.inl (by rw [hstate,hhot.1,hhot.2])⟩
      · exact ⟨.normal,hnormal.1.symm,rfl,rfl,.inr (by rw [hstate,hhot.1]; omega)⟩
    · split_ifs with hcount
      · exact hhot.2 ▸ hstay
      · exact ⟨.normal,hnormal.1.symm,rfl,rfl,.inr (by rw [hstate,hhot.2]; omega)⟩
    · exact hnormal.1 ▸ hstay
  · simp only [resolveQueueLane,henabled,Bool.not_false,if_true]
    have hnormal : m.laneOf (s.state (m.pairKey pair)) = .normal := by simp [laneOf,henabled]
    exact hnormal ▸ hstay

theorem Follows.concat {i : Intent} (h : m.Follows pairs s) (hpair : i.pair ∈ pairs)
    (hlane : i.pair.Keyed → i.lane = m.laneOf (s.state (m.pairKey i.pair))) :
    m.Follows pairs { s with intents := s.intents ++ [i] } := by
  refine ⟨fun j hj => ?_,fun j hj => ?_⟩
  · rcases mem_append.mp hj with hj | hj
    · exact h.pairs j hj
    · exact mem_singleton.mp hj ▸ hpair
  · rcases mem_append.mp hj with hj | hj
    · exact h.lanes j hj
    · exact mem_singleton.mp hj ▸ hlane

theorem Follows.assign (h : m.Follows pairs s) (haligned : m.Aligned pairs) (hpair : pair ∈ pairs) :
    m.Follows pairs (m.assignQueueLane s pair) := by
  unfold assignQueueLane
  split_ifs with hkeyed
  · obtain ⟨state,hlane,hintents,hstate,hmoved⟩ := resolveQueueLane_resolves m s pair
    refine Follows.concat ⟨fun i hi => h.pairs i (hintents ▸ hi),fun i hi hkeyed => ?_⟩ hpair fun _ => ?_
    · rw [hintents] at hi
      rw [h.lanes i hi hkeyed,hstate]
      by_cases hkey : m.pairKey i.pair = m.pairKey pair
      · -- the pair's own intents are the ones that were counted
        rw [hkey,update_self]
        refine hmoved.resolve_right fun hnone => countP_eq_zero.mp hnone i hi ?_
        simp [h.lanes i hi hkeyed,haligned _ (h.pairs i hi) _ hpair hkey]
      · rw [update_of_ne hkey]
    · rw [hstate,update_self]
      exact hlane
  · exact h.concat hpair fun hk => absurd hk hkeyed

theorem Follows.step (h : m.Follows pairs s) (haligned : m.Aligned pairs) (e : LaneEvent) (hpair : ∀ p, e = .assign p → p ∈ pairs) :
    m.Follows pairs (m.step s e) := by
  cases e with
  | assign p => exact h.assign haligned (hpair p rfl)
  | finish position =>
    exact ⟨fun i hi => h.pairs i (mem_of_mem_eraseIdx hi),fun i hi => h.lanes i (mem_of_mem_eraseIdx hi)⟩
  | contention p =>
    obtain ⟨hintents,hlanes⟩ := recordContention_keeps m s p
    refine ⟨fun i hi => h.pairs i (hintents ▸ hi),fun i hi hkeyed => ?_⟩
    exact (h.lanes i (hintents ▸ hi) hkeyed).trans (hlanes _).symm
  | activityExpires key => exact ⟨h.pairs,h.lanes⟩
  | contentionExpires key => exact ⟨h.pairs,h.lanes⟩

/-- The pairs of the intents that a run assigns. -/
def assigned (es : List LaneEvent) : List Pair := es.filterMap fun | .assign p => some p | _ => none

theorem follows_run (haligned : m.Aligned pairs) {es : List LaneEvent} (hpairs : assigned es ⊆ pairs) (hs : m.Follows pairs s) :
    m.Follows pairs (es.foldl m.step s) := by
  induction es generalizing s with
  | nil => exact hs
  | cons e es ih =>
    refine ih (fun p hp => hpairs ?_) (hs.step haligned e fun p hp => hpairs ?_)
    · obtain ⟨e',he',hp⟩ := mem_filterMap.mp hp
      exact mem_filterMap.mpr ⟨e',mem_cons_of_mem _ he',hp⟩
    · exact mem_filterMap.mpr ⟨e,mem_cons_self,hp ▸ rfl⟩

end Manager

theorem lanes_exclusive (m : Manager) (es : List LaneEvent) (haligned : m.Aligned (Manager.assigned es)) : m.Exclusive (m.run es) := by
  have hinit : m.Follows (Manager.assigned es) .init := ⟨nofun,nofun⟩
  exact (Manager.follows_run haligned (Subset.refl _) hinit).exclusive

def contended : Manager := ⟨true,1,fun c => if c = "usd" then "USD" else c⟩

/-- Contention of one pair moves it to the hot lane and back. -/
theorem contended_pair_exclusive : contended.Exclusive (contended.run [.contention ⟨"a","b","USD"⟩,.assign ⟨"a","b","USD"⟩,
    .assign ⟨"a","b","USD"⟩,.finish 0]) :=
  lanes_exclusive _ _ (by decide)

/-- The intents of the other spelling are not counted. -/
theorem spellings_share_no_lane : ¬ contended.Exclusive (contended.run [.assign ⟨"a","b","usd"⟩,.contention ⟨"a","b","USD"⟩,
    .assign ⟨"a","b","USD"⟩]) := by
  decide

end LedgerForge.HotLanes
