import LedgerForge.Library.LockTables
import Mathlib.Data.String.Basic
import Mathlib.Tactic

/-! # Locks on several keys

A locker takes its keys one by one in lexicographic order and releases what it has when one of them is not free. Any
number of lockers share one Redis; each command is atomic there, but it may fail before it runs, and its reply may be
lost after it ran. Keys do not expire.
-/

namespace LedgerForge

open List LockTable Option Function

/-- The keys of a locker, without duplicates and in lexicographic order, and the value that marks them as its own. -/
structure MultiLocker where
  keys : List String
  value : String
  sorted : keys.Pairwise (· < ·)

namespace MultiLocker

/-- The keys that are not empty, each at its first occurrence. -/
def uniqueKeys (keys : List String) : List String :=
  keys.foldl (fun unique key => if key ≠ "" ∧ key ∉ unique then unique ++ [key] else unique) []

theorem uniqueKeys_nodup (keys : List String) : (uniqueKeys keys).Nodup := by
  suffices h : ∀ unique : List String, unique.Nodup →
      (keys.foldl (fun unique key => if key ≠ "" ∧ key ∉ unique then unique ++ [key] else unique) unique).Nodup from
    h [] nodup_nil
  induction keys with
  | nil => exact fun _ h => h
  | cons key keys ih =>
    intro unique hunique
    rw [foldl_cons]
    apply ih
    split
    · next hnew => exact nodup_append_comm.mp (nodup_cons.mpr ⟨hnew.2,hunique⟩)
    · exact hunique

theorem insertionSort_lt {keys : List String} (h : keys.Nodup) : (keys.insertionSort (· ≤ ·)).Pairwise (· < ·) := by
  have hle := pairwise_insertionSort (· ≤ ·) keys
  have hne : (keys.insertionSort (· ≤ ·)).Nodup := (perm_insertionSort (· ≤ ·) keys).nodup_iff.mpr h
  exact hle.imp₂ (fun _ _ hle hne => lt_of_le_of_ne hle hne) hne

end MultiLocker

def newMultiLocker (keys : List String) (value : String) : MultiLocker where
  keys := (MultiLocker.uniqueKeys keys).insertionSort (· ≤ ·)
  value := value
  sorted := MultiLocker.insertionSort_lt (MultiLocker.uniqueKeys_nodup keys)

/-- Where the goroutine that uses a locker stands. -/
inductive LockPhase
  /-- No call yet, or the last one was an Unlock. -/
  | idle
  /-- Inside Lock, called by WaitLock or not, with the first keys set. -/
  | acquiring (wait : Bool) (acquiredCount : ℕ)
  /-- Inside the rollback of a Lock that failed on a held key or on an error, with the first keys still to be released. -/
  | rollingBack (wait held : Bool) (count : ℕ)
  /-- Inside WaitLock, between two attempts. -/
  | sleeping
  /-- The last Lock or WaitLock returned an error. -/
  | failed
  /-- The last Lock or WaitLock returned no error. -/
  | locked
  /-- Inside Unlock, with the first keys still to be released. -/
  | unlocking (count : ℕ)
deriving DecidableEq

/-- What becomes of a command. -/
inductive Reply
  /-- It ran and the reply arrived. -/
  | received
  /-- It did not run, and the client got an error. -/
  | failed
  /-- It ran, but the client got an error. -/
  | lost
deriving DecidableEq

/-- A call of the locker's user, the next Redis command of a running call, or the end of a backoff. -/
inductive LockAction
  | lock (wait : Bool)
  | setNX (reply : Reply)
  | release (reply : Reply)
  | wake
  | giveUp
  | unlock
deriving DecidableEq

abbrev Redis := LockTable String String

/-- Lock has returned its error once nothing is left to roll back; WaitLock tries again when a key was held. -/
def LockPhase.rollback (wait held : Bool) (count : ℕ) : LockPhase :=
  if count ≠ 0 then .rollingBack wait held count else if wait && held then .sleeping else .failed

def LockPhase.unlock (count : ℕ) : LockPhase := if count ≠ 0 then .unlocking count else .idle

namespace MultiLocker

variable (m : MultiLocker)

def attempt (wait : Bool) (acquiredCount : ℕ) : LockPhase :=
  if acquiredCount = m.keys.length then .locked else .acquiring wait acquiredCount

def nextKey : LockPhase → Option String
  | .acquiring _ n | .rollingBack _ _ (n+1) | .unlocking (n+1) => m.keys[n]?
  | _ => none

def compareDelete (t : Redis) (key : Option String) (reply : Reply) : Redis :=
  match key, reply with
  | none, _ | _, .failed => t
  | some key, _ => LockTable.compareDelete t key m.value

/-- One step of the goroutine that uses the locker. -/
def act (t : Redis) (p : LockPhase) (a : LockAction) : Redis × LockPhase :=
  match a, p with
  | .lock wait, .idle | .lock wait, .failed | .lock wait, .locked =>
    (t,if wait then .sleeping else m.attempt false 0)
  | .setNX reply, .acquiring wait n =>
    match m.keys[n]?, reply with
    | none, _ => (t,p)
    | some key, .received =>
      -- SETNX answers whether it has set the key
      if (t key).isNone then (t.setIfAbsent key m.value,m.attempt wait (n+1)) else (t,.rollback wait true n)
    | some _, .failed => (t,.rollback wait false n)
    | some key, .lost => (t.setIfAbsent key m.value,.rollback wait false n)
  -- the error of a release is dropped by the rollback, and Unlock goes on after it
  | .release reply, .rollingBack wait held (n+1) => (m.compareDelete t m.keys[n]? reply,.rollback wait held n)
  | .release reply, .unlocking (n+1) => (m.compareDelete t m.keys[n]? reply,.unlock n)
  | .wake, .sleeping => (t,m.attempt true 0)
  | .giveUp, .sleeping => (t,.failed)
  | .unlock, .idle | .unlock, .failed | .unlock, .locked => (t,.unlock m.keys.length)
  | _, _ => (t,p)

def holds : LockPhase → List String
  | .acquiring _ n | .rollingBack _ _ n => m.keys.take n
  | .locked => m.keys
  | _ => []

/-- The keys that may be set with the locker's value if no command failed. -/
def mayHold : LockPhase → List String
  | .unlocking n => m.keys.take n
  | p => m.holds p

@[simp] theorem holds_resting : m.holds .idle = [] ∧ m.holds .sleeping = [] ∧ m.holds .failed = [] := ⟨rfl,rfl,rfl⟩

@[simp] theorem mayHold_resting : m.mayHold .idle = [] ∧ m.mayHold .sleeping = [] ∧ m.mayHold .failed = [] :=
  ⟨rfl,rfl,rfl⟩

@[simp] theorem mayHold_locked : m.mayHold .locked = m.keys := rfl

@[simp] theorem holds_acquiring (wait : Bool) (n : ℕ) : m.holds (.acquiring wait n) = m.keys.take n := rfl

@[simp] theorem mayHold_acquiring (wait : Bool) (n : ℕ) : m.mayHold (.acquiring wait n) = m.keys.take n := rfl

@[simp] theorem holds_rollingBack (wait held : Bool) (n : ℕ) : m.holds (.rollingBack wait held n) = m.keys.take n := rfl

@[simp] theorem holds_attempt (wait : Bool) (n : ℕ) : m.holds (m.attempt wait n) = m.keys.take n := by
  unfold attempt
  split
  · next h => simp [holds,h]
  · rfl

@[simp] theorem holds_rollback (wait held : Bool) (n : ℕ) : m.holds (.rollback wait held n) = m.keys.take n := by
  unfold LockPhase.rollback
  split
  · rfl
  next h =>
  rw [not_not] at h
  cases wait <;> cases held <;> simp [holds,h]

@[simp] theorem mayHold_attempt (wait : Bool) (n : ℕ) : m.mayHold (m.attempt wait n) = m.keys.take n := by
  rw [← m.holds_attempt wait n]
  unfold attempt
  split <;> rfl

@[simp] theorem mayHold_rollback (wait held : Bool) (n : ℕ) : m.mayHold (.rollback wait held n) = m.keys.take n := by
  rw [← m.holds_rollback wait held n]
  unfold LockPhase.rollback
  split
  · rfl
  · cases wait <;> cases held <;> rfl

@[simp] theorem holds_unlock (n : ℕ) : m.holds (.unlock n) = [] := by
  unfold LockPhase.unlock
  split <;> rfl

@[simp] theorem mayHold_unlock (n : ℕ) : m.mayHold (.unlock n) = m.keys.take n := by
  unfold LockPhase.unlock
  split
  · rfl
  next h =>
  rw [not_not] at h
  simp [mayHold,holds,h]

/-- What a step can do: nothing to the table, set the next key, set it without noticing, or try to release the last
one. -/
inductive Acted (t : Redis) (p : LockPhase) : LockAction → Redis → LockPhase → Prop
  | kept {a p'} (hheld : m.holds p' ⊆ m.holds p)
      (hmay : (p = .locked → ∀ wait, a ≠ .lock wait) → m.mayHold p ⊆ m.mayHold p') : Acted t p a t p'
  | acquired {n key p'} (hkey : m.keys[n]? = some key) (hfree : t key = none) (hheld : m.holds p = m.keys.take n)
      (hmay : m.mayHold p = m.keys.take n) (hheld' : m.holds p' = m.keys.take (n+1))
      (hmay' : m.mayHold p' = m.keys.take (n+1)) : Acted t p (.setNX .received) (t.setIfAbsent key m.value) p'
  | unnoticed {key p'} (hkey : m.nextKey p = some key) (hheld : m.holds p' = m.holds p)
      (hmay : m.mayHold p' = m.mayHold p) : Acted t p (.setNX .lost) (t.setIfAbsent key m.value) p'
  | released {n key reply p'} (hkey : m.keys[n]? = some key) (hnext : m.nextKey p = some key)
      (hheld : m.holds p' ⊆ m.holds p) (hlow : m.holds p' ⊆ m.keys.take n) (hmay : m.mayHold p = m.keys.take (n+1))
      (hmay' : m.mayHold p' = m.keys.take n) : Acted t p (.release reply) (m.compareDelete t (some key) reply) p'

variable {m} {t : Redis} {p : LockPhase}

theorem Acted.unchanged (a : LockAction) : m.Acted t p a t p := .kept (List.Subset.refl _) fun _ => List.Subset.refl _

theorem acted_setNX (wait : Bool) (n : ℕ) (reply : Reply) :
    m.Acted t (.acquiring wait n) (.setNX reply) (m.act t (.acquiring wait n) (.setNX reply)).1
      (m.act t (.acquiring wait n) (.setNX reply)).2 := by
  cases hkey : m.keys[n]? with
  | none =>
    simp only [act,hkey]
    exact Acted.unchanged _
  | some key =>
    cases reply with
    | received =>
      simp only [act,hkey]
      split
      · next hfree =>
        exact .acquired hkey (isNone_iff_eq_none.mp hfree) rfl rfl (m.holds_attempt _ _) (m.mayHold_attempt _ _)
      · exact .kept (by simp) (by simp)
    | failed =>
      simp only [act,hkey]
      exact .kept (by simp) (by simp)
    | lost =>
      simp only [act,hkey]
      exact .unnoticed hkey (by simp) (by simp)

variable {n : ℕ} {reply : Reply} {key : String}

theorem acted_release {p' : LockPhase} (hnext : m.nextKey p = m.keys[n]?)
    (hheld : m.holds p' ⊆ m.holds p) (hlow : m.holds p' ⊆ m.keys.take n) (hmay : m.mayHold p = m.keys.take (n+1))
    (hmay' : m.mayHold p' = m.keys.take n) : m.Acted t p (.release reply) (m.compareDelete t m.keys[n]? reply) p' := by
  cases hkey : m.keys[n]? with
  | none =>
    have hlen : m.keys.length ≤ n := List.getElem?_eq_none_iff.mp hkey
    refine .kept hheld fun _ => ?_
    rw [hmay,hmay',take_of_length_le hlen,take_of_length_le (by omega)]
    exact List.Subset.refl _
  | some key => exact .released hkey (hnext.trans hkey) hheld hlow hmay hmay'

theorem acted (a : LockAction) : m.Acted t p a (m.act t p a).1 (m.act t p a).2 := by
  cases a with
  | lock wait =>
    cases p with
    | idle | failed => cases wait <;> exact .kept (by simp [act]) (by simp [act])
    | locked => cases wait <;> exact .kept (by simp [act]) (by simp)
    | _ => exact Acted.unchanged _
  | setNX reply =>
    cases p with
    | acquiring wait n => exact acted_setNX wait n reply
    | _ => exact Acted.unchanged _
  | release reply =>
    cases p with
    | rollingBack wait held count =>
      cases count with
      | zero => exact Acted.unchanged _
      | succ n =>
        have hmono : m.keys.take n ⊆ m.keys.take (n+1) := (take_sublist_take_left (Nat.le_succ n)).subset
        exact acted_release rfl (by simpa [act] using hmono) (by simp [act]) rfl (by simp [act])
    | unlocking count =>
      cases count with
      | zero => exact Acted.unchanged _
      | succ n => exact acted_release rfl (by simp [act]) (by simp [act]) rfl (by simp [act])
    | _ => exact Acted.unchanged _
  | wake =>
    cases p with
    | sleeping => exact .kept (by simp [act]) (by simp [act])
    | _ => exact Acted.unchanged _
  | giveUp =>
    cases p with
    | sleeping => exact .kept (by simp [act]) (by simp [act])
    | _ => exact Acted.unchanged _
  | unlock =>
    cases p with
    | idle | failed | locked => exact .kept (by simp [act]) (by simp [act])
    | _ => exact Acted.unchanged _

theorem lt_of_mem_take {k : String} (hkey : m.keys[n]? = some key) (hk : k ∈ m.keys.take n) : k < key := by
  obtain ⟨i,hi,rfl⟩ := mem_take_iff_getElem.mp hk
  obtain ⟨hn,rfl⟩ := List.getElem?_eq_some_iff.mp hkey
  exact pairwise_iff_getElem.mp m.sorted i n _ hn (by omega)

theorem mem_take_succ {k : String} (hkey : m.keys[n]? = some key) :
    k ∈ m.keys.take (n+1) ↔ k ∈ m.keys.take n ∨ k = key := by
  rw [take_add_one,hkey]
  simp

theorem compareDelete_other {k v : String} (hv : v ≠ m.value) (h : t k = some v) :
    m.compareDelete t (some key) reply k = some v := by
  cases reply with
  | failed => exact h
  | received | lost => exact LockTable.compareDelete_of_ne hv h

theorem compareDelete_of_key_ne {k : String} (hk : k ≠ key) :
    m.compareDelete t (some key) reply k = t k := by
  cases reply with
  | failed => rfl
  | received | lost => exact LockTable.compareDelete_of_key_ne hk

theorem of_compareDelete {k v : String} (h : m.compareDelete t (some key) reply k = some v) :
    t k = some v := by
  cases reply with
  | failed => exact h
  | received | lost => exact LockTable.of_compareDelete h

def Owns (m : MultiLocker) (t : Redis) (p : LockPhase) : Prop := ∀ k ∈ m.holds p, t k = some m.value

def Clean (m : MultiLocker) (t : Redis) (p : LockPhase) : Prop := ∀ k, t k = some m.value → k ∈ m.mayHold p

/-- Lock is not called on a locker that is locked, no SETNX sets a key without its reply, and no release of a key of the
locker's own fails. -/
def Regular (m : MultiLocker) (t : Redis) (p : LockPhase) : LockAction → Prop
  | .lock _ => p ≠ .locked
  | .setNX .lost => ∀ key ∈ (m.nextKey p).toList, t key ≠ none
  | .release .failed => ∀ key ∈ (m.nextKey p).toList, t key ≠ some m.value
  | _ => True

instance (t : Redis) (p : LockPhase) : (a : LockAction) → Decidable (m.Regular t p a)
  | .lock _ => inferInstanceAs (Decidable (_ ≠ _))
  | .setNX .lost => inferInstanceAs (Decidable (∀ key ∈ (m.nextKey p).toList, t key ≠ none))
  | .release .failed => inferInstanceAs (Decidable (∀ key ∈ (m.nextKey p).toList, t key ≠ some m.value))
  | .setNX .received | .setNX .failed | .release .received | .release .lost | .wake | .giveUp | .unlock =>
    inferInstanceAs (Decidable True)

variable {a : LockAction} {t' : Redis} {p' : LockPhase} {k v : String}

theorem Acted.other (h : m.Acted t p a t' p') (hv : v ≠ m.value) (hk : t k = some v) : t' k = some v := by
  cases h with
  | kept => exact hk
  | acquired | unnoticed => exact setIfAbsent_of_some hk
  | released => exact compareDelete_other hv hk

theorem Acted.of_other (h : m.Acted t p a t' p') (hv : v ≠ m.value) (hk : t' k = some v) : t k = some v := by
  cases h with
  | kept => exact hk
  | acquired | unnoticed =>
    rcases of_setIfAbsent hk with ⟨-,hown,-⟩ | hk
    · exact absurd hown hv
    · exact hk
  | released => exact of_compareDelete hk

theorem Acted.owns (h : m.Acted t p a t' p') (ho : m.Owns t p) : m.Owns t' p' := by
  intro k hk
  cases h with
  | kept hheld => exact ho k (hheld hk)
  | acquired hkey hfree hheld _ hheld' =>
    rw [hheld',mem_take_succ hkey,← hheld] at hk
    rcases hk with hk | rfl
    · exact setIfAbsent_of_some (ho k hk)
    · exact setIfAbsent_self hfree
  | unnoticed _ hheld => exact setIfAbsent_of_some (ho k (hheld ▸ hk))
  | released hkey _ hheld hlow =>
    rw [compareDelete_of_key_ne (lt_of_mem_take hkey (hlow hk)).ne]
    exact ho k (hheld hk)

theorem Acted.clean (h : m.Acted t p a t' p') (hr : m.Regular t p a) (hc : m.Clean t p) : m.Clean t' p' := by
  intro k hk
  cases h with
  | kept _ hmay =>
    refine hmay ?_ (hc k hk)
    rintro rfl wait rfl
    exact hr rfl
  | acquired hkey _ _ hmay _ hmay' =>
    rw [hmay',mem_take_succ hkey,← hmay]
    rcases of_setIfAbsent hk with ⟨rfl,-,-⟩ | hk
    · exact .inr rfl
    · exact .inl (hc k hk)
  | unnoticed hkey _ hmay =>
    rcases of_setIfAbsent hk with ⟨-,-,hfree⟩ | hk
    · exact absurd hfree (hr _ (mem_toList.mpr hkey))
    · rw [hmay]
      exact hc k hk
  | @released n key reply _ hkey hnext _ _ hmay hmay' =>
    have hmem := hc k (of_compareDelete hk)
    rw [hmay,mem_take_succ hkey] at hmem
    rw [hmay']
    refine hmem.resolve_right ?_
    rintro rfl
    cases reply with
    | failed => exact hr k (mem_toList.mpr hnext) hk
    | received | lost => exact LockTable.compareDelete_self hk

end MultiLocker

/-- Lockers with values that were generated for each of them. -/
structure Lockers (ι : Type*) where
  locker : ι → MultiLocker
  distinct : Injective fun i => (locker i).value

structure LockState (ι : Type*) where
  table : Redis
  phase : ι → LockPhase

namespace Lockers

variable {ι : Type*} [DecidableEq ι] (c : Lockers ι)

def start : LockState ι := ⟨.empty,fun _ => .idle⟩

def step (s : LockState ι) (e : ι × LockAction) : LockState ι :=
  let next := (c.locker e.1).act s.table (s.phase e.1) e.2
  ⟨next.1,update s.phase e.1 next.2⟩

def run (events : List (ι × LockAction)) : LockState ι := events.foldl c.step start

def Regular (s : LockState ι) (e : ι × LockAction) : Prop := (c.locker e.1).Regular s.table (s.phase e.1) e.2

instance (s : LockState ι) (e : ι × LockAction) : Decidable (c.Regular s e) :=
  inferInstanceAs (Decidable ((c.locker e.1).Regular _ _ _))

def RegularFrom (s : LockState ι) : List (ι × LockAction) → Prop
  | [] => True
  | e :: events => c.Regular s e ∧ RegularFrom (c.step s e) events

instance decidableRegularFrom (s : LockState ι) : (events : List (ι × LockAction)) → Decidable (c.RegularFrom s events)
  | [] => inferInstanceAs (Decidable True)
  | e :: events =>
    have := decidableRegularFrom (c.step s e) events
    inferInstanceAs (Decidable (_ ∧ _))

variable {c} {s : LockState ι} {e : ι × LockAction} {events : List (ι × LockAction)}

theorem acted_step : (c.locker e.1).Acted s.table (s.phase e.1) e.2 (c.step s e).table ((c.step s e).phase e.1) := by
  simp only [step,update_self]
  exact MultiLocker.acted e.2

omit [DecidableEq ι] in
theorem value_ne {i j : ι} (h : i ≠ j) : (c.locker i).value ≠ (c.locker j).value := fun he => h (c.distinct he)

theorem owns_step (h : ∀ i, (c.locker i).Owns s.table (s.phase i)) (i : ι) :
    (c.locker i).Owns (c.step s e).table ((c.step s e).phase i) := by
  by_cases hi : i = e.1
  · subst hi
    exact acted_step.owns (h e.1)
  intro k hk
  simp only [step,update_of_ne hi] at hk
  exact acted_step.other (value_ne hi) (h i k hk)

theorem clean_step (hr : c.Regular s e) (h : ∀ i, (c.locker i).Clean s.table (s.phase i)) (i : ι) :
    (c.locker i).Clean (c.step s e).table ((c.step s e).phase i) := by
  by_cases hi : i = e.1
  · subst hi
    exact acted_step.clean hr (h e.1)
  intro k hk
  simp only [step,update_of_ne hi]
  exact h i k (acted_step.of_other (value_ne hi) hk)

theorem owns_run (i : ι) : (c.locker i).Owns (c.run events).table ((c.run events).phase i) := by
  suffices h : ∀ s : LockState ι, (∀ i, (c.locker i).Owns s.table (s.phase i)) →
      ∀ i, (c.locker i).Owns (events.foldl c.step s).table ((events.foldl c.step s).phase i) from
    h start (fun _ k hk => absurd hk (not_mem_nil)) i
  induction events with
  | nil => exact fun _ h => h
  | cons e events ih => exact fun s h => ih (c.step s e) (owns_step h)

theorem clean_run (hr : c.RegularFrom start events) (i : ι) :
    (c.locker i).Clean (c.run events).table ((c.run events).phase i) := by
  suffices h : ∀ s : LockState ι, c.RegularFrom s events → (∀ i, (c.locker i).Clean s.table (s.phase i)) →
      ∀ i, (c.locker i).Clean (events.foldl c.step s).table ((events.foldl c.step s).phase i) from
    h start hr (fun _ k hk => absurd hk (some_ne_none _).symm) i
  clear hr
  induction events with
  | nil => exact fun _ _ h => h
  | cons e events ih => exact fun s hr h => ih (c.step s e) hr.2 (clean_step hr.1 h)

/-- The keys a locker waits for: the next one inside an attempt, all of them between two attempts. -/
def wants (c : Lockers ι) (s : LockState ι) (i : ι) : List String :=
  match s.phase i with
  | .acquiring _ n => (c.locker i).keys[n]?.toList
  | .sleeping => (c.locker i).keys
  | _ => []

def Waits (c : Lockers ι) (s : LockState ι) (i j : ι) : Prop :=
  ∃ key ∈ c.wants s i, s.table key = some (c.locker j).value

def nextKey (c : Lockers ι) (s : LockState ι) (i : ι) : String := ((c.locker i).nextKey (s.phase i)).getD ""

omit [DecidableEq ι] in
theorem Waits.attempt {z i j : ι} (hclean : ∀ i, (c.locker i).Clean s.table (s.phase i)) (hz : c.Waits s z i)
    (hi : c.Waits s i j) : ∃ wait n, s.phase i = .acquiring wait n ∧ (c.locker i).keys[n]? = some (c.nextKey s i) := by
  obtain ⟨key,-,hkey⟩ := hz
  have hown := hclean i key hkey
  obtain ⟨want,hwant,-⟩ := hi
  unfold wants at hwant
  split at hwant
  · next wait n hphase =>
    refine ⟨wait,n,hphase,?_⟩
    simp only [nextKey,hphase,MultiLocker.nextKey]
    rw [mem_toList] at hwant
    rw [mem_def.mp hwant]
    rfl
  · next hphase =>
    rw [hphase] at hown
    exact absurd hown not_mem_nil
  · exact absurd hwant not_mem_nil

omit [DecidableEq ι] in
theorem no_waiting_cycle (hclean : ∀ i, (c.locker i).Clean s.table (s.phase i)) (i : ι) :
    ¬ Relation.TransGen (c.Waits s) i i := by
  refine @Waiting.no_cycle ι String _ (c.Waits s) (c.nextKey s) (fun z a b d hza hab hbd => ?_) i
  obtain ⟨wait,n,hphase,hnext⟩ := Waits.attempt hclean hza hab
  obtain ⟨_,_,hphase',hnext'⟩ := Waits.attempt hclean hab hbd
  obtain ⟨key,hwant,howner⟩ := hab
  have hkey : key = c.nextKey s a := by
    simpa [wants,hphase,hnext] using hwant
  have hheld := hclean b key howner
  rw [hphase'] at hheld
  exact hkey ▸ MultiLocker.lt_of_mem_take hnext' hheld

/-- In every run two locked lockers share no key and no step touches a key of another owner. In a regular run a locker
whose Lock failed owns no key, also between two attempts, and no lockers wait for each other in a cycle. -/
theorem multi_lock_safety (c : Lockers ι) (events : List (ι × LockAction)) :
    (∀ i, (c.run events).phase i = .locked → ∀ key ∈ (c.locker i).keys,
      (c.run events).table key = some (c.locker i).value) ∧
    (∀ i j, i ≠ j → (c.run events).phase i = .locked → (c.run events).phase j = .locked →
      List.Disjoint (c.locker i).keys (c.locker j).keys) ∧
    (∀ i a key owner, owner ≠ (c.locker i).value → (c.run events).table key = some owner →
      (c.step (c.run events) (i,a)).table key = some owner) ∧
    (c.RegularFrom start events →
      (∀ i key, (c.run events).phase i = .failed ∨ (c.run events).phase i = .sleeping →
        (c.run events).table key ≠ some (c.locker i).value) ∧
      ∀ i, ¬ Relation.TransGen (c.Waits (c.run events)) i i) := by
  have hlocked : ∀ i, (c.run events).phase i = .locked → ∀ key ∈ (c.locker i).keys,
      (c.run events).table key = some (c.locker i).value := by
    intro i hi key hkey
    have howns := @owns_run _ _ c events i
    rw [hi] at howns
    exact howns key hkey
  refine ⟨hlocked,?_,?_,?_⟩
  · intro i j hij hi hj key hki hkj
    exact value_ne hij (some.inj ((hlocked i hi key hki).symm.trans (hlocked j hj key hkj)))
  · intro i a key owner howner hkey
    exact (acted_step).other howner hkey
  · intro hr
    refine ⟨?_,no_waiting_cycle (clean_run hr)⟩
    intro i key hphase hown
    have hclean := clean_run hr i key hown
    rcases hphase with hphase | hphase <;> rw [hphase] at hclean <;> exact not_mem_nil hclean

def transfers : Lockers Bool where
  locker first := if first then newMultiLocker ["bln_b","bln_a","bln_b"] "loc_1" else newMultiLocker ["bln_b"] "loc_2"
  distinct := by
    intro i j h
    cases i <;> cases j <;> simp_all [newMultiLocker]

/-- The second one takes the shared balance, the first one waits for it and rolls back its other key. -/
def contended (reply : Reply) : List (Bool × LockAction) :=
  [(false,.lock false),(false,.setNX .received),(true,.lock true),(true,.wake),(true,.setNX .received),
    (true,.setNX .received),(true,.release reply)]

theorem contended_keeps_nothing : (transfers.run (contended .received)).phase true = .sleeping ∧
    (transfers.run (contended .received)).table "bln_a" ≠ some "loc_1" := by
  have hphase : (transfers.run (contended .received)).phase true = .sleeping := by decide
  have hsafe := multi_lock_safety transfers (contended .received)
  exact ⟨hphase,(hsafe.2.2.2 (by decide)).1 true "bln_a" (.inr hphase)⟩

/-- When the release of the rollback fails, the attempt has failed but its key is still held, and the locker waits for
itself. -/
theorem failed_rollback_leaves_key_held : (transfers.run (contended .failed)).phase true = .sleeping ∧
    (transfers.run (contended .failed)).table "bln_a" = some (transfers.locker true).value ∧
    Relation.TransGen (transfers.Waits (transfers.run (contended .failed))) true true := by
  have htable : (transfers.run (contended .failed)).table "bln_a" = some (transfers.locker true).value := by
    decide
  exact ⟨by decide,htable,.single ⟨"bln_a",by decide,htable⟩⟩

end Lockers

end LedgerForge
