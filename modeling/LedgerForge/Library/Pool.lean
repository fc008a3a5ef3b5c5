import LedgerForge.Library.EventRuns

/-! # Pools of workers

A number of workers take jobs from a queue, in order; a worker that is done with its job takes the next one. Jobs make steps
of their own and may share something.
-/

namespace LedgerForge.Pool

open Relation Function

structure State {n : ℕ} (σ : Fin n → Type*) (τ : Type*) where
  taken : ℕ
  job : ∀ i, σ i
  shared : τ

variable {n : ℕ} {σ : Fin n → Type*} {τ : Type*}

def State.busy (finished : ∀ i, σ i → Bool) (s : State σ τ) : ℕ :=
  (Finset.univ.filter fun i : Fin n => i < s.taken ∧ finished i (s.job i) = false).card

inductive Step (workers : ℕ) (finished : ∀ i, σ i → Bool) (step : ∀ i, σ i → τ → σ i → τ → Prop) : State σ τ → State σ τ → Prop
  | take {s : State σ τ} (hnext : s.taken < n) (hfree : s.busy finished < workers) :
      Step workers finished step s { s with taken := s.taken+1 }
  | work {s : State σ τ} (i : Fin n) (x : σ i) (y : τ) (htaken : i < s.taken) (hstep : step i (s.job i) s.shared x y) :
      Step workers finished step s { s with job := update s.job i x, shared := y }

variable {workers : ℕ} {finished : ∀ i, σ i → Bool} {step : ∀ i, σ i → τ → σ i → τ → Prop} {s t : State σ τ}

theorem busy_lt (hnext : s.taken < n) (hworkers : n ≤ workers) : s.busy finished < workers := by
  have hidle : (⟨s.taken,hnext⟩) ∉ Finset.univ.filter fun i : Fin n => i < s.taken ∧ finished i (s.job i) = false := by
    simp
  have hcard := Finset.card_lt_univ_of_notMem hidle
  rw [Fintype.card_fin] at hcard
  exact hcard.trans_le hworkers

theorem run_take (hworkers : n ≤ workers) {m : ℕ} (hm : m ≤ n) (htaken : s.taken ≤ m) :
    ReflTransGen (Step workers finished step) s { s with taken := m } := by
  induction m, htaken using Nat.le_induction with
  | base => exact .refl
  | succ m hle ih =>
    have hnext : m < n := hm
    exact (ih hnext.le).tail (.take hnext (busy_lt hnext hworkers))

theorem run_work {i : Fin n} {p : σ i × τ} (htaken : i < s.taken)
    (h : ReflTransGen (fun p q => step i p.1 p.2 q.1 q.2) (s.job i,s.shared) p) :
    ReflTransGen (Step workers finished step) s { s with job := update s.job i p.1, shared := p.2 } := by
  induction h with
  | refl => rw [update_eq_self]
  | @tail p q _ hlast ih =>
    have hstep : Step workers finished step { s with job := update s.job i p.1, shared := p.2 }
        { s with job := update (update s.job i p.1) i q.1, shared := q.2 } :=
      .work i q.1 q.2 htaken (by dsimp only; rwa [update_self])
    rw [update_idem] at hstep
    exact ih.tail hstep

section Independent

variable {own : ∀ i, σ i → σ i → Prop} {initial : ∀ i, σ i}

def Reaches (workers : ℕ) (finished : ∀ i, σ i → Bool) (own : ∀ i, σ i → σ i → Prop) (initial : ∀ i, σ i) : State σ Unit → Prop :=
  ReflTransGen (Step workers finished fun i x _ y _ => own i x y) ⟨0,initial,()⟩

theorem Reaches.job {s : State σ Unit} (h : Reaches workers finished own initial s) (i : Fin n) :
    ReflTransGen (own i) (initial i) (s.job i) := by
  induction h with
  | refl => exact .refl
  | tail _ hlast ih =>
    cases hlast with
    | take _ _ => exact ih
    | work j x y _ hown =>
      dsimp only
      by_cases hij : i = j
      · subst hij
        rw [update_self]
        exact ih.tail hown
      · rwa [update_of_ne hij]

/-- With a worker for each job, the jobs can get to any states that they can get to alone. -/
theorem exists_reaches (hworkers : n ≤ workers) {x : ∀ i, σ i} (hx : ∀ i, ReflTransGen (own i) (initial i) (x i)) :
    ∃ s, Reaches workers finished own initial s ∧ s.job = x := by
  have hfirst : ∀ m ≤ n, Reaches workers finished own initial ⟨n,fun i => if i < m then x i else initial i,()⟩ := by
    intro m hm
    induction m with
    | zero =>
      exact run_take hworkers le_rfl (Nat.zero_le n)
    | succ m ih =>
      let next : Fin n := ⟨m,hm⟩
      have hnow : (fun i : Fin n => if i < m then x i else initial i) next = initial next := if_neg (lt_irrefl m)
      have hwork : ReflTransGen (fun p q : σ next × Unit => own next p.1 q.1)
          ((fun i : Fin n => if i < m then x i else initial i) next,()) (x next,()) := by
        rw [hnow]
        exact (hx next).lift (fun y => (y,())) fun _ _ hstep => hstep
      have hupdate : update (fun i : Fin n => if i < m then x i else initial i) next (x next) =
          fun i : Fin n => if i < m+1 then x i else initial i := by
        funext i
        by_cases hi : i = next
        · subst hi
          simp [next]
        have hne : i ≠ m := fun h => hi (Fin.ext h)
        have hiff : i < m+1 ↔ i < m := by omega
        simp only [update_of_ne hi,hiff]
      have hrun : ReflTransGen (Step workers finished fun i x _ y _ => own i x y)
          ⟨n,fun i => if i < m then x i else initial i,()⟩
          ⟨n,update (fun i : Fin n => if i < m then x i else initial i) next (x next),()⟩ :=
        run_work (p := (x next,())) next.isLt hwork
      rw [← hupdate]
      exact (ih (Nat.le_of_succ_le hm)).trans hrun
  refine ⟨_,hfirst n le_rfl,?_⟩
  funext i
  exact if_pos i.isLt

variable {ι κ : Type*} {name : Fin n → ι} {got : ∀ i, σ i → Set κ}

def Exclusive (name : Fin n → ι) (got : ∀ i, σ i → Set κ) (s : State σ Unit) : Prop :=
  ∀ i j a b, a ∈ got i (s.job i) → b ∈ got j (s.job j) → (name i = name j ↔ a = b)

variable {eligible : Fin n → ℕ → κ → Prop}

def Separated (name : Fin n → ι) (eligible : Fin n → ℕ → κ → Prop) : Prop :=
  ∀ i j k l a b, (i,k) ≠ (j,l) → eligible i k a → eligible j l b → (name i = name j ↔ a = b)

def OnePerSlot {α : Type*} (own : α → α → Prop) (initial : α) (got : α → Set κ) (eligible : ℕ → κ → Prop) : Prop :=
  ∀ x, ReflTransGen own initial x → ∀ a ∈ got x, ∀ b ∈ got x, ∃ k l, eligible k a ∧ eligible l b ∧ (k = l → a = b)

def AnyPerSlot {α : Type*} (own : α → α → Prop) (initial : α) (got : α → Set κ) (eligible : ℕ → κ → Prop) : Prop :=
  ∀ k l a b, eligible k a → eligible l b → (k = l → a = b) → ∃ x, ReflTransGen own initial x ∧ a ∈ got x ∧ b ∈ got x

theorem exclusive_of_separated (hone : ∀ i, OnePerSlot (own i) (initial i) (got i) (eligible i)) (hseparated : Separated name eligible)
    {s : State σ Unit} (h : Reaches workers finished own initial s) : Exclusive name got s := by
  intro i j a b ha hb
  by_cases hij : i = j
  · subst hij
    obtain ⟨k,l,hk,hl,heq⟩ := hone i _ (h.job i) a ha b hb
    by_cases hkl : k = l
    · exact ⟨fun _ => heq hkl,fun _ => rfl⟩
    · exact hseparated i i k l a b (by simpa using hkl) hk hl
  · obtain ⟨k,-,hk,-⟩ := hone i _ (h.job i) a ha a ha
    obtain ⟨l,-,hl,-⟩ := hone j _ (h.job j) b hb b hb
    exact hseparated i j k l a b (by simp [hij]) hk hl

theorem separated_of_exclusive (hany : ∀ i, AnyPerSlot (own i) (initial i) (got i) (eligible i)) (hworkers : n ≤ workers)
    (hexclusive : ∀ s, Reaches workers finished own initial s → Exclusive name got s) : Separated name eligible := by
  intro i j k l a b hne ha hb
  have hstates : ∀ m, ∃ x, ReflTransGen (own m) (initial m) x ∧ (m = i → a ∈ got m x) ∧ (m = j → b ∈ got m x) := by
    intro m
    by_cases hi : m = i
    · by_cases hj : m = j
      · subst hi hj
        obtain ⟨x,hx,hax,hbx⟩ := hany m k l a b ha hb fun hkl => absurd (by rw [hkl]) hne
        exact ⟨x,hx,fun _ => hax,fun _ => hbx⟩
      · subst hi
        obtain ⟨x,hx,hax,-⟩ := hany m k k a a ha ha fun _ => rfl
        exact ⟨x,hx,fun _ => hax,fun h => absurd h hj⟩
    · by_cases hj : m = j
      · subst hj
        obtain ⟨x,hx,hbx,-⟩ := hany m l l b b hb hb fun _ => rfl
        exact ⟨x,hx,fun h => absurd h hi,fun _ => hbx⟩
      · exact ⟨initial m,.refl,fun h => absurd h hi,fun h => absurd h hj⟩
  choose x hx hax hbx using hstates
  obtain ⟨s,hreach,rfl⟩ := exists_reaches hworkers hx
  exact hexclusive s hreach i j a b (hax i rfl) (hbx j rfl)

end Independent

end LedgerForge.Pool
