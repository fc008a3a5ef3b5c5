import LedgerForge.Library.Pool
import LedgerForge.Reconciliation.Schedules

/-! # Exclusive matches

One-to-one reconciliation hands the rows of a query to a pool of workers; the one that sets the flag sends the match.
A run hands its inputs to a pool as well. The flag and the map of groups belong to one call, and the map to one page
of it.
-/

namespace LedgerForge.Reconciliation

open Relation Pool Call

/-- What findMatchingInternalTransaction works on: the external transaction, and the rows that the query returns for it. -/
structure Search where
  externalTxn : Transaction
  internalTxns : List Transaction
  matchingRules : List MatchingRule
  texts : TextFunctions

/-- Where the worker of a row stands. -/
inductive Probe
  | waiting
  /-- The flag was not set and the row matches. -/
  | passed
  | processed
deriving DecidableEq

def Probe.isProcessed : Probe → Bool
  | .processed => true
  | _ => false

structure Found where
  matchFound : Bool
  matchChan : List Match

namespace Search

variable (q : Search)

def accepts (internalTxn : Transaction) : Bool := matchesRules q.texts q.externalTxn internalTxn q.matchingRules

def message (internalTxn : Transaction) : Match :=
  ⟨q.externalTxn.transactionID,internalTxn.transactionID,q.externalTxn.amount,q.externalTxn.createdAt⟩

/-- A step of the worker of a row. The channel has room for the match of the worker that sets the flag. -/
inductive ProbeStep (i : Fin q.internalTxns.length) : Probe → Found → Probe → Found → Prop
  | pass {f} (hopen : f.matchFound = false) (haccepts : q.accepts (q.internalTxns.get i) = true) :
      ProbeStep i .waiting f .passed f
  | skip {f} (hskip : f.matchFound = true ∨ q.accepts (q.internalTxns.get i) = false) : ProbeStep i .waiting f .processed f
  | swap {f} (hopen : f.matchFound = false) :
      ProbeStep i .passed f .processed ⟨true,f.matchChan ++ [q.message (q.internalTxns.get i)]⟩
  | late {f} (hset : f.matchFound = true) : ProbeStep i .passed f .processed f

abbrev State : Type := Pool.State (fun _ : Fin q.internalTxns.length => Probe) Found

def initial : q.State := ⟨0,fun _ => .waiting,⟨false,[]⟩⟩

def Step (maxWorkers : ℕ) : q.State → q.State → Prop := Pool.Step maxWorkers (fun _ => Probe.isProcessed) q.ProbeStep

def returned (s : q.State) : Bool := decide (∀ i, s.job i = .processed)

variable {q} {s t : q.State} {maxWorkers : ℕ}

/-- What holds in every state of the search. -/
structure Sound (s : q.State) : Prop where
  passed : ∀ i, s.job i = .passed → q.accepts (q.internalTxns.get i) = true
  unset : s.shared.matchFound = false → s.shared.matchChan = []
  sent : s.shared.matchChan = [] ∨ ∃ internalTxn ∈ q.internalTxns, q.accepts internalTxn = true ∧
    s.shared.matchChan = [q.message internalTxn]

theorem Sound.step (hsound : Sound s) (h : q.Step maxWorkers s t) : Sound t := by
  cases h with
  | take _ _ => exact ⟨hsound.passed,hsound.unset,hsound.sent⟩
  | work i x f _ hprobe =>
    -- Only the row that moves can have passed now.
    have hpassed : (x = .passed → q.accepts (q.internalTxns.get i) = true) → ∀ j, Function.update s.job i x j = .passed →
        q.accepts (q.internalTxns.get j) = true := by
      intro hx j hj
      by_cases hji : j = i
      · subst hji
        rw [Function.update_self] at hj
        exact hx hj
      · rw [Function.update_of_ne hji] at hj
        exact hsound.passed j hj
    generalize hjob : s.job i = phase at hprobe
    generalize hshared : s.shared = g at hprobe
    cases hprobe with
    | pass _ haccepts => exact ⟨hpassed fun _ => haccepts,hshared ▸ hsound.unset,hshared ▸ hsound.sent⟩
    | skip _ => exact ⟨hpassed nofun,hshared ▸ hsound.unset,hshared ▸ hsound.sent⟩
    | late _ => exact ⟨hpassed nofun,hshared ▸ hsound.unset,hshared ▸ hsound.sent⟩
    | swap hopen =>
      have hempty : g.matchChan = [] := hshared ▸ hsound.unset (hshared ▸ hopen)
      refine ⟨hpassed nofun,nofun,.inr ⟨_,List.get_mem ..,hsound.passed i hjob,?_⟩⟩
      simp [hempty]

theorem Sound.reaches (h : ReflTransGen (q.Step maxWorkers) q.initial s) : Sound s :=
  Transitions.invariant (fun _ _ hsound hstep => hsound.step hstep) h ⟨nofun,fun _ => rfl,.inl rfl⟩

theorem exists_sent (hworkers : q.internalTxns.length ≤ maxWorkers) {internalTxn : Transaction}
    (hmem : internalTxn ∈ q.internalTxns) (haccepts : q.accepts internalTxn = true) :
    ∃ s, ReflTransGen (q.Step maxWorkers) q.initial s ∧ s.shared.matchChan = [q.message internalTxn] := by
  obtain ⟨i,rfl⟩ := List.get_of_mem hmem
  have htake : ReflTransGen (q.Step maxWorkers) q.initial { q.initial with taken := q.internalTxns.length } :=
    Pool.run_take hworkers le_rfl (Nat.zero_le _)
  have hrun : ReflTransGen (fun p r : Probe × Found => q.ProbeStep i p.1 p.2 r.1 r.2) (.waiting,⟨false,[]⟩)
      (.processed,⟨true,[q.message (q.internalTxns.get i)]⟩) :=
    (ReflTransGen.single (b := (Probe.passed,⟨false,[]⟩)) (ProbeStep.pass rfl haccepts)).tail (ProbeStep.swap rfl)
  exact ⟨_,htake.trans (run_work i.isLt hrun),rfl⟩

end Search

open Float64

/-- A call of a reconciler for one input, and what the input is matched to so far. -/
structure Reconciler where
  State : Type
  initial : State
  Step : State → State → Prop
  returned : State → Bool
  counterparts : State → Set String

def Search.reconciler (q : Search) (maxWorkers : ℕ) : Reconciler where
  State := q.State
  initial := q.initial
  Step := q.Step maxWorkers
  returned := q.returned
  counterparts s := { id | ∃ m ∈ s.shared.matchChan, m.internalTransactionID = id }

def Main.isReturned : Main → Bool
  | .returned => true
  | _ => false

def Call.reconciler (c : Call) : Reconciler where
  State := CallState
  initial := .initial
  Step := CallStep c
  returned s := s.main.isReturned
  counterparts s := { key | ∃ w ∈ s.workers, w.phase.claim = some key }

/-- The reconciler of a strategy that is not supported returns nothing. -/
def Reconciler.none : Reconciler where
  State := Unit
  initial := ()
  Step _ _ := False
  returned _ := true
  counterparts _ := ∅

inductive Strategy
  | oneToOne
  | oneToMany
  | manyToOne
  | unsupported (strategy : String)
deriving DecidableEq

def maxWorkers (configured : ℤ) : ℕ := if configured ≤ 0 then 10 else configured.toNat

theorem maxWorkers_pos (configured : ℤ) : 0 < maxWorkers configured := by
  unfold maxWorkers
  split <;> omega

theorem exists_maxWorkers (n : ℕ) : ∃ configured, n ≤ maxWorkers configured := by
  refine ⟨n+1,?_⟩
  unfold maxWorkers
  split <;> omega

/-- A run: its inputs, and the rows and the pages of groups that the datasource returns for each of them. -/
structure Run where
  strategy : Strategy
  inputs : List Transaction
  candidates : Fin inputs.length → List Transaction
  pages : Fin inputs.length → List GroupPage
  matchingRules : List MatchingRule
  texts : TextFunctions

namespace Run

variable (r : Run) (configured : ℤ) (i : Fin r.inputs.length)

def search : Search := ⟨r.inputs.get i,r.candidates i,r.matchingRules,r.texts⟩

def call (isExternalGrouped : Bool) : Call where
  singleTxns := [r.inputs.get i]
  pages := r.pages i
  matchingRules := r.matchingRules
  texts := r.texts
  isExternalGrouped := isExternalGrouped
  maxWorkers := maxWorkers configured
  nonempty := nofun
  distinct := by simp
  workers_pos := maxWorkers_pos configured

def createReconciler : Reconciler :=
  match r.strategy with
  | .oneToOne => (r.search i).reconciler (maxWorkers configured)
  | .oneToMany => (r.call configured i false).reconciler
  | .manyToOne => (r.call configured i true).reconciler
  | .unsupported _ => .none

/-- What the input can be matched to by the slot: one-to-one calls have one, other calls one for each page. -/
def eligible (slot : ℕ) (id : String) : Prop :=
  match r.strategy with
  | .oneToOne => slot = 0 ∧ ∃ internalTxn ∈ r.candidates i,
      matchesRules r.texts (r.inputs.get i) internalTxn r.matchingRules = true ∧ internalTxn.transactionID = id
  | .unsupported _ => False
  | _ => ∃ page, (r.pages i)[slot]? = some page ∧ id ∈ page.keys ∧
      matchesGroup r.texts (r.inputs.get i) (page.group id) r.matchingRules = true

def inputID : String := (r.inputs.get i).transactionID

def Reaches : Pool.State (fun i => (r.createReconciler configured i).State) Unit → Prop :=
  Pool.Reaches (maxWorkers configured) (fun i => (r.createReconciler configured i).returned)
    (fun i => (r.createReconciler configured i).Step) fun i => (r.createReconciler configured i).initial

/-- However many workers there are, no state has two inputs with the same counterpart or an input with two of them. -/
def Exclusive : Prop :=
  ∀ configured s, r.Reaches configured s →
    Pool.Exclusive r.inputID (fun i => (r.createReconciler configured i).counterparts) s

end Run

theorem Search.onePerSlot (q : Search) (maxWorkers : ℕ) :
    Pool.OnePerSlot (q.reconciler maxWorkers).Step q.initial (q.reconciler maxWorkers).counterparts fun slot id =>
      slot = 0 ∧ ∃ internalTxn ∈ q.internalTxns, q.accepts internalTxn = true ∧ internalTxn.transactionID = id := by
  rintro s hreach a ⟨m,hm,rfl⟩ b ⟨m',hm',rfl⟩
  rcases (Sound.reaches hreach).sent with hnone | ⟨internalTxn,hmem,haccepts,hsent⟩
  · rw [hnone] at hm
    cases hm
  rw [hsent,List.mem_singleton] at hm hm'
  subst hm hm'
  exact ⟨0,0,⟨rfl,internalTxn,hmem,haccepts,rfl⟩,⟨rfl,internalTxn,hmem,haccepts,rfl⟩,fun _ => rfl⟩

theorem Search.anyPerSlot {q : Search} {maxWorkers : ℕ} (hworkers : q.internalTxns.length ≤ maxWorkers) :
    Pool.AnyPerSlot (q.reconciler maxWorkers).Step q.initial (q.reconciler maxWorkers).counterparts fun slot id =>
      slot = 0 ∧ ∃ internalTxn ∈ q.internalTxns, q.accepts internalTxn = true ∧ internalTxn.transactionID = id := by
  rintro k l a b ⟨rfl,internalTxn,hmem,haccepts,rfl⟩ ⟨rfl,-⟩ hone
  obtain ⟨s,hreach,hsent⟩ := exists_sent hworkers hmem haccepts
  have hgot : internalTxn.transactionID ∈ (q.reconciler maxWorkers).counterparts s :=
    ⟨q.message internalTxn,hsent ▸ List.mem_singleton_self _,rfl⟩
  exact ⟨s,hreach,hgot,hone rfl ▸ hgot⟩

section Call

variable {c : Call} {x : Transaction}

theorem Call.onePerSlot (hsingle : c.singleTxns = [x]) :
    OnePerSlot (CallStep c) .initial c.reconciler.counterparts fun slot key =>
      ∃ page, c.pages[slot]? = some page ∧ key ∈ page.keys ∧ c.accepts x page key = true := by
  rintro s hreach a ⟨w,hw,ha⟩ b ⟨v,hv,hb⟩
  have hsound := Sound.reaches hreach
  have htxn : ∀ u ∈ s.workers, u.txn = x := fun u hu => by simpa [hsingle] using hsound.txn_mem hu
  have hclaimed : ∀ u ∈ s.workers, ∀ key, u.phase.claim = some key →
      key ∈ u.page.keys ∧ c.accepts x u.page key = true := by
    intro u hu key hclaim
    rw [← htxn u hu]
    exact (hsound.phases u hu).claimed hclaim
  refine ⟨w.number,v.number,⟨w.page,hsound.numbered w hw,hclaimed w hw a ha⟩,⟨v.page,hsound.numbered v hv,hclaimed v hv b hb⟩,?_⟩
  intro hnumber
  cases hsound.worker_unique hw hv hnumber ((htxn w hw).trans (htxn v hv).symm)
  exact Option.some.inj (ha.symm.trans hb)

theorem Call.mem_counterparts {s : CallState} {k : ℕ} {p : GroupPage} {key : String} (hreach : c.Reaches s)
    (hpage : c.pages[k]? = some p) (hkey : key ∈ p.keys) (hvisited : (k,x) ∈ assignments s.workers) (hgone : key ∉ s.groupMap k) :
    key ∈ c.reconciler.counterparts s := by
  obtain ⟨w,hw,hnumber,-⟩ := exists_worker_of_assigned hvisited
  obtain ⟨v,hv,-,hclaim⟩ := ((Sound.reaches hreach).left k p hpage (.inl ⟨w,hw,hnumber⟩)).2 key hkey hgone
  exact ⟨v,hv,hclaim⟩

theorem Call.anyPerSlot (hsingle : c.singleTxns = [x]) :
    AnyPerSlot (CallStep c) .initial c.reconciler.counterparts fun slot key =>
      ∃ page, c.pages[slot]? = some page ∧ key ∈ page.keys ∧ c.accepts x page key = true := by
  rintro k l a b ⟨p,hp,ha,haccepts⟩ ⟨p',hp',hb,haccepts'⟩ hone
  have hk : k < c.pages.length := (List.getElem?_eq_some_iff.mp hp).1
  have hl : l < c.pages.length := (List.getElem?_eq_some_iff.mp hp').1
  have hx : x ∈ c.singleTxns := by simp [hsingle]
  obtain ⟨s,hreach,hmain,huntouched⟩ := exists_collecting c (List.ne_nil_of_length_pos (by omega))
  have hsound := Sound.reaches hreach
  have hassigned : ∀ j < c.pages.length, (j,x) ∈ assignments s.workers := by
    intro j hj
    rw [huntouched.assigned]
    exact mem_blocks.mpr ⟨hj,hx⟩
  obtain ⟨t,hrun,hq,-,-,hgone,hsame,hkept⟩ := exists_claimed (fun _ => x) hreach (huntouched.quiet hmain) hp
    (List.nodup_singleton a)
    (fun key hkey => by
      rw [List.mem_singleton.mp hkey]
      exact ⟨by rwa [huntouched.maps k p hk hp],haccepts,huntouched.mem_workers hsound hk hp hx⟩)
    (by simp)
  have hreach' := hreach.trans hrun
  by_cases hkl : k = l
  · have hgot := mem_counterparts hreach' hp ha (assigned_kept hrun (hassigned k hk)) (hgone a (List.mem_singleton_self a))
    exact ⟨t,hreach',hgot,hone hkl ▸ hgot⟩
  obtain ⟨u,hlater,-,-,-,hgone',hsame',-⟩ := exists_claimed (fun _ => x) hreach' hq hp' (List.nodup_singleton b)
    (fun key hkey => by
      rw [List.mem_singleton.mp hkey]
      refine ⟨?_,haccepts',hkept _ (huntouched.mem_workers hsound hl hp' hx) fun h => absurd h.symm hkl⟩
      rwa [hsame l (Ne.symm hkl),huntouched.maps l p' hl hp'])
    (by simp)
  have hvisited := assigned_kept (hrun.trans hlater)
  refine ⟨u,hreach'.trans hlater,mem_counterparts (hreach'.trans hlater) hp ha (hvisited (hassigned k hk)) ?_,
    mem_counterparts (hreach'.trans hlater) hp' hb (hvisited (hassigned l hl)) (hgone' b (List.mem_singleton_self b))⟩
  rw [hsame' k hkl]
  exact hgone a (List.mem_singleton_self a)

end Call

theorem Run.onePerSlot (r : Run) (configured : ℤ) (i : Fin r.inputs.length) :
    OnePerSlot (r.createReconciler configured i).Step (r.createReconciler configured i).initial
      (r.createReconciler configured i).counterparts (r.eligible i) := by
  obtain ⟨strategy,inputs,candidates,pages,matchingRules,texts⟩ := r
  cases strategy with
  | oneToOne => exact Search.onePerSlot _ _
  | oneToMany => exact Call.onePerSlot rfl
  | manyToOne => exact Call.onePerSlot rfl
  | unsupported strategy => exact fun _ _ _ ha => absurd ha (Set.notMem_empty _)

theorem Run.anyPerSlot (r : Run) (configured : ℤ) (i : Fin r.inputs.length) (hworkers : (r.candidates i).length ≤ maxWorkers configured) :
    AnyPerSlot (r.createReconciler configured i).Step (r.createReconciler configured i).initial
      (r.createReconciler configured i).counterparts (r.eligible i) := by
  obtain ⟨strategy,inputs,candidates,pages,matchingRules,texts⟩ := r
  cases strategy with
  | oneToOne => exact Search.anyPerSlot hworkers
  | oneToMany => exact Call.anyPerSlot rfl
  | manyToOne => exact Call.anyPerSlot rfl
  | unsupported strategy => exact fun _ _ _ _ ha => ha.elim

/-- Matches are exclusive exactly when what the rules allow is: no internal transaction and no group can be matched to two
inputs, and no input to different groups on two pages. -/
theorem matches_exclusive (r : Run) : r.Exclusive ↔ Separated r.inputID r.eligible := by
  constructor
  · intro hexclusive
    obtain ⟨configured,hconfigured⟩ := exists_maxWorkers (r.inputs.length+∑ i, (r.candidates i).length)
    have hrows : ∀ i, (r.candidates i).length ≤ maxWorkers configured := fun i =>
      (Finset.single_le_sum (fun _ _ => Nat.zero_le _) (Finset.mem_univ i)).trans (Nat.le_of_add_left_le hconfigured)
    exact Pool.separated_of_exclusive (fun i => r.anyPerSlot configured i (hrows i)) (Nat.le_of_add_right_le hconfigured)
      (hexclusive configured)
  · intro hseparated configured s hreach
    exact Pool.exclusive_of_separated (fun i => r.onePerSlot configured i) hseparated hreach

def samePayment : Run where
  strategy := .oneToOne
  inputs := [⟨"t",ofInt 12,"","USD",0,""⟩,⟨"u",ofInt 12,"","USD",0,""⟩]
  candidates _ := [⟨"x",ofInt 12,"","USD",0,""⟩]
  pages _ := []
  matchingRules := sameAmount
  texts := .plain

def groupPerPage : Run where
  strategy := .manyToOne
  inputs := [⟨"x",ofInt 12,"","USD",0,""⟩]
  candidates _ := []
  pages _ := [.ofGroup [("A",⟨"t",ofInt 12,"A","USD",1,""⟩)] nofun,.ofGroup [("B",⟨"u",ofInt 12,"B","USD",2,""⟩)] nofun]
  matchingRules := sameAmount
  texts := .plain

/-- Both external transactions are matched to the one in the ledger, and the transaction to both groups. -/
theorem counterparts_shared :
    (∃ s, samePayment.Reaches 10 s ∧ ∀ i, "x" ∈ (samePayment.createReconciler 10 i).counterparts (s.job i)) ∧
    (∃ s, groupPerPage.Reaches 10 s ∧ ∀ i, "A" ∈ (groupPerPage.createReconciler 10 i).counterparts (s.job i) ∧
      "B" ∈ (groupPerPage.createReconciler 10 i).counterparts (s.job i)) ∧
    ¬ samePayment.Exclusive ∧ ¬ groupPerPage.Exclusive := by
  have hpayment : ∀ i, samePayment.eligible i 0 "x" := fun i =>
    ⟨rfl,⟨"x",ofInt 12,"","USD",0,""⟩,List.mem_singleton_self _,by revert i; decide +kernel,rfl⟩
  have hgroups : ∀ i, groupPerPage.eligible i 0 "A" ∧ groupPerPage.eligible i 1 "B" := fun i =>
    ⟨⟨_,rfl,by decide,by revert i; decide +kernel⟩,⟨_,rfl,by decide,by revert i; decide +kernel⟩⟩
  obtain ⟨s,hs,hsgot⟩ : ∃ s, samePayment.Reaches 10 s ∧ ∀ i, "x" ∈ (samePayment.createReconciler 10 i).counterparts (s.job i) := by
    have hcalls := fun i => samePayment.anyPerSlot 10 i (by decide +revert) 0 0 "x" "x" (hpayment i) (hpayment i) fun _ => rfl
    choose x hx hgot _ using hcalls
    obtain ⟨s,hreach,rfl⟩ := Pool.exists_reaches (by decide : samePayment.inputs.length ≤ maxWorkers 10) hx
    exact ⟨s,hreach,hgot⟩
  obtain ⟨t,ht,htgot⟩ : ∃ t, groupPerPage.Reaches 10 t ∧ ∀ i, "A" ∈ (groupPerPage.createReconciler 10 i).counterparts (t.job i) ∧
      "B" ∈ (groupPerPage.createReconciler 10 i).counterparts (t.job i) := by
    have hcalls := fun i => groupPerPage.anyPerSlot 10 i (by decide +revert) 0 1 "A" "B" (hgroups i).1 (hgroups i).2 nofun
    choose x hx hgot hgot' using hcalls
    obtain ⟨t,hreach,rfl⟩ := Pool.exists_reaches (by decide : groupPerPage.inputs.length ≤ maxWorkers 10) hx
    exact ⟨t,hreach,fun i => ⟨hgot i,hgot' i⟩⟩
  refine ⟨⟨s,hs,hsgot⟩,⟨t,ht,htgot⟩,fun h => ?_,fun h => ?_⟩
  · exact absurd ((h 10 s hs ⟨0,by decide⟩ ⟨1,by decide⟩ "x" "x" (hsgot _) (hsgot _)).mpr rfl) (by decide)
  · exact absurd ((h 10 t ht ⟨0,by decide⟩ ⟨0,by decide⟩ "A" "B" (htgot _).1 (htgot _).2).mp rfl) (by decide)

end LedgerForge.Reconciliation
