import LedgerForge.Lineage.Resumption

/-! # Retried lineage entries

An entry is retried until an attempt succeeds. The shadow transactions are those of one uninterrupted attempt when every
attempt before has stopped with nothing stored, with everything stored, or between two allocations of a debit.
-/

namespace LedgerForge.Lineage

open Attempt

variable {d : Directory} {e : LineageEntry} {f : Faults} {s s' : LineageState} {source : TrackedBalance}

def validatedProvider (e : LineageEntry) (s : LineageState) : String :=
  match e.source with
  | some source =>
    if e.provider = "" ∨ !source.trackFundLineage then e.provider
    else if s.mappings.any fun m => m.balanceID = source.balanceID ∧ m.provider = e.provider then e.provider else ""
  | none => e.provider

/-- The entry has no credit. -/
def Creditless (e : LineageEntry) (s : LineageState) : Prop :=
  validatedProvider e s = "" ∨ ∀ destination ∈ e.destination, destination.trackFundLineage = false

def receiver (d : Directory) (e : LineageEntry) : Receiver := prepareDestination d (.none 0) e.destination

theorem validateLineageProvider_none :
    validateLineageProvider e e.source ⟨s,none⟩ = (.ok (validatedProvider e s),⟨s,none⟩) := by
  unfold validateLineageProvider validatedProvider
  cases e.source with
  | none => rfl
  | some source =>
    simp only
    split
    · rfl
    · rfl

/-- Without a credit an undisturbed attempt is the debit. -/
theorem attempt_debit (now : ℤ) (hsource : e.source = some source) (htrack : source.trackFundLineage = true)
    (hcredit : Creditless e s) (hr : (receiver d e).Apart source.balanceID) :
    (attempt d e (.none now) s).1 = ((settleDebit d e source (receiver d e) (s.getLineageMappings source.balanceID)
        s.ledger).1.mapError fun message => "lineage debit processing failed" ++ ": " ++ message) ∧
      (attempt d e (.none now) s).2.ledger = (settleDebit d e source (receiver d e)
        (s.getLineageMappings source.balanceID) s.ledger).2 := by
  obtain ⟨s',hdebit,hledger⟩ := @processLineageDebit_none d e s source e.destination now hr
  have hvalid : annotate "lineage provider validation failed" (validateLineageProvider e e.source) ⟨s,none⟩ =
    (.ok (validatedProvider e s),⟨s,none⟩) := annotate_of_ok validateLineageProvider_none
  have hskip : creditDestination d e (.none now) e.destination (validatedProvider e s) ⟨s,none⟩ = (.ok (),⟨s,none⟩) := by
    unfold creditDestination
    rcases hcredit with hempty | hnone
    · rw [hempty]
      cases e.destination <;> simp
    cases hdest : e.destination with
    | none => rfl
    | some destination => simp [hnone destination hdest]
  have hrun : processLineage d e (.none now) e.source e.destination ⟨s,none⟩ =
      annotate "lineage debit processing failed" (processLineageDebit d e (.none now) source e.destination) ⟨s,none⟩ := by
    unfold processLineage
    rw [bind_of_ok hvalid,bind_of_ok hskip]
    simp only [debitSource,hsource,htrack,if_true]
  have hreceiver : prepareDestination d (.none now) e.destination = receiver d e := rfl
  rw [hreceiver] at hdebit hledger
  rw [← hledger]
  change ((processLineageFromOutbox d e (.none now) ⟨s,none⟩).1 = _) ∧
    (processLineageFromOutbox d e (.none now) ⟨s,none⟩).2.state.ledger = _
  have houtbox : processLineageFromOutbox d e (.none now) ⟨s,none⟩ =
    (processLineage d e (.none now) e.source e.destination >>= fun _ => call) ⟨s,none⟩ := rfl
  rw [houtbox]
  generalize settleDebit d e source (receiver d e) (s.getLineageMappings source.balanceID) s.ledger = r at hdebit
  obtain ⟨result,l⟩ := r
  cases result with
  | error message => rw [bind_of_error (hrun.trans (annotate_of_error hdebit))]; exact ⟨rfl,rfl⟩
  | ok _ => rw [bind_of_ok (hrun.trans (annotate_of_ok hdebit))]; exact ⟨rfl,rfl⟩

theorem validatedProvider_congr (hsource : e.source = some source)
    (hm : s'.getLineageMappings source.balanceID = s.getLineageMappings source.balanceID) :
    validatedProvider e s' = validatedProvider e s := by
  have hmem : ∀ m : LineageMapping, m.balanceID = source.balanceID → (m ∈ s'.mappings ↔ m ∈ s.mappings) := by
    intro m hb
    have h := congrArg (m ∈ ·) hm
    simpa [LineageState.getLineageMappings,hb] using h
  have hany : (s'.mappings.any fun m => m.balanceID = source.balanceID ∧ m.provider = e.provider) =
      s.mappings.any fun m => m.balanceID = source.balanceID ∧ m.provider = e.provider := by
    rw [Bool.eq_iff_iff]
    simp only [List.any_eq_true,decide_eq_true_eq]
    constructor
    · rintro ⟨m,hin,hb,hp⟩
      exact ⟨m,(hmem m hb).mp hin,hb,hp⟩
    · rintro ⟨m,hin,hb,hp⟩
      exact ⟨m,(hmem m hb).mpr hin,hb,hp⟩
  simp only [validatedProvider,hsource,hany]

/-- The entry is a debit of a source that tracks lineage, and what a state adds does not concern its mappings. -/
structure Debits (d : Directory) (e : LineageEntry) (source : TrackedBalance) (s s' : LineageState) : Prop where
  source_eq : e.source = some source
  tracks : source.trackFundLineage = true
  creditless : Creditless e s
  apart : (receiver d e).Apart source.balanceID
  mappings_eq : s'.getLineageMappings source.balanceID = s.getLineageMappings source.balanceID

/-- What an attempt from one state may leave behind. -/
inductive Stopped (d : Directory) (e : LineageEntry) (s : LineageState) : LineageState → Prop
  | untouched : Stopped d e s s
  /-- Every allocation is stored, and they cover the amount. -/
  | complete {source : TrackedBalance} {s' : LineageState} (h : Debits d e source s s')
      (hdone : settleDebit d e source (receiver d e) (s.getLineageMappings source.balanceID) s.ledger = (.ok (),s'.ledger))
      (hcovered : remainingDebitAmount e s'.ledger (s.getLineageMappings source.balanceID) ≤ 0) : Stopped d e s s'
  /-- Some of the allocations are stored, each with its receipt. -/
  | between {source : TrackedBalance} {aggregate : String} {s' : LineageState} (h : Debits d e source s s')
      (haggregate : sourceAggregate d source = some aggregate)
      (hseparable : Separable e source (s.getLineageMappings source.balanceID) aggregate (receiver d e)) (n : ℕ)
      (hstored : settleAll d e (s.getLineageMappings source.balanceID) aggregate (receiver d e) s.ledger
        ((debitAllocations e source (s.getLineageMappings source.balanceID) s.ledger).take n) = (.ok (),s'.ledger)) :
      Stopped d e s s'

/-- No release of the entry is stored for a provider with funds left, unless the debit is done. -/
def Ready (e : LineageEntry) (s : LineageState) : Prop :=
  ∀ source ∈ e.source, Open e (s.getLineageMappings source.balanceID) s.ledger

theorem Debits.attempt_eq (h : Debits d e source s s') (now : ℤ)
    (heq : settleDebit d e source (receiver d e) (s.getLineageMappings source.balanceID) s'.ledger =
      settleDebit d e source (receiver d e) (s.getLineageMappings source.balanceID) s.ledger) :
    (attempt d e (.none now) s').1 = (attempt d e (.none now) s).1 ∧
      (attempt d e (.none now) s').2.ledger = (attempt d e (.none now) s).2.ledger := by
  have hcredit : Creditless e s' := by
    have hc := h.creditless
    rwa [Creditless,← validatedProvider_congr h.source_eq h.mappings_eq] at hc
  obtain ⟨hresult,hledger⟩ := attempt_debit now h.source_eq h.tracks h.creditless h.apart
  obtain ⟨hresult',hledger'⟩ := attempt_debit now h.source_eq h.tracks hcredit h.apart
  rw [h.mappings_eq,heq] at hresult' hledger'
  exact ⟨hresult'.trans hresult.symm,hledger'.trans hledger.symm⟩

theorem Stopped.resumes (h : Stopped d e s s') (hready : Ready e s) (now : ℤ) : Ready e s' ∧
    (attempt d e (.none now) s').1 = (attempt d e (.none now) s).1 ∧
      (attempt d e (.none now) s').2.ledger = (attempt d e (.none now) s).2.ledger := by
  cases h with
  | untouched => exact ⟨hready,rfl,rfl⟩
  | complete h hdone hcovered =>
    refine ⟨?_,h.attempt_eq now ?_⟩
    · intro source hsource
      cases h.source_eq.symm.trans hsource
      rw [h.mappings_eq]
      exact fun m _ _ => .inr hcovered
    · rw [hdone,settleDebit,if_pos (.inr hcovered)]
  | between h haggregate hseparable n hstored =>
    obtain ⟨hopen,hrest⟩ := hseparable.run (hready _ h.source_eq) hstored
    refine ⟨?_,h.attempt_eq now ?_⟩
    · intro source hsource
      cases h.source_eq.symm.trans hsource
      rwa [h.mappings_eq]
    · rw [settleDebit_eq haggregate,settleDebit_eq haggregate,hrest]

/-- No failure of the attempt is only logged. -/
def Faults.Reported (f : Faults) : Prop :=
  f.sourceUnread = false ∧ f.destinationUnread = false ∧ f.pendingUnread = false ∧ f.unprepared = false ∧
    f.mappingLost = false

theorem queueTransaction_completes (t : ShadowTransaction) : Completes (queueTransaction d t) (queueTransaction d t) := by
  refine .bind .call fun _ => .bind .read fun s => ?_
  split
  · exact .fail _
  split
  · exact .fail _
  · exact .write _

theorem validateLineageProvider_completes (source : Option TrackedBalance) :
    Completes (validateLineageProvider e source) (validateLineageProvider e source) := by
  unfold validateLineageProvider
  split
  · split
    · exact .pure _
    · exact .bind .call fun _ => .bind .read fun s => .pure _
  · exact .pure _

theorem processLineageCredit_completes (hf : f.Reported) (destination : TrackedBalance) (provider : String) :
    Completes (processLineageCredit d e f destination provider)
      (processLineageCredit d e (.none f.now) destination provider) := by
  obtain ⟨-,-,-,-,hmapping⟩ := hf
  unfold processLineageCredit
  split
  · exact .fail _
  refine .bind .call fun _ => ?_
  split
  · exact .fail _
  refine .bind .call fun _ => .bind (.annotate (queueTransaction_completes _)) fun _ => ?_
  simp only [hmapping,Faults.none,Bool.false_eq_true,if_false]
  exact .write _

theorem processDestinationLineage_completes (m : LineageMapping) (alloc : Allocation) (receiver : Receiver) :
    Completes (processDestinationLineage d e f m alloc receiver)
      (processDestinationLineage d e (.none f.now) m alloc receiver) := by
  unfold processDestinationLineage
  split
  · exact .pure _
  · exact .bind (.annotate (queueTransaction_completes _)) fun _ => .bind .call fun _ => .write _

theorem processAllocations_completes (mappings : List LineageMapping) (aggregate : String) (receiver : Receiver)
    (allocations : List Allocation) : Completes (processAllocations d e f mappings aggregate receiver allocations)
      (processAllocations d e (.none f.now) mappings aggregate receiver allocations) := by
  induction allocations with
  | nil => exact .pure _
  | cons alloc allocations ih =>
    refine .bind ?_ fun _ => ih
    unfold processAllocation
    split
    · exact .pure _
    split
    · exact .pure _
    refine .bind .call fun _ => .bind .read fun s => ?_
    split
    · exact .pure _
    · exact .bind (.annotate (queueTransaction_completes _)) fun _ =>
        .annotate (processDestinationLineage_completes _ _ _)

theorem processLineageDebit_completes (hf : f.Reported) (source : TrackedBalance) (destination : Option TrackedBalance) :
    Completes (processLineageDebit d e f source destination)
      (processLineageDebit d e (.none f.now) source destination) := by
  obtain ⟨-,-,hpending,hprepared,-⟩ := hf
  have hreceiver : prepareDestination d f destination = prepareDestination d (.none f.now) destination := by
    unfold prepareDestination
    rw [hprepared]
    rfl
  unfold processLineageDebit
  rw [hreceiver]
  refine .bind .call fun _ => .bind .read fun s => ?_
  simp only [hpending]
  split
  · split
    · exact .fail _
    · exact .pure _
  refine .bind .call fun _ => .bind .call fun _ => .bind .call fun _ => ?_
  split
  · exact .pure _
  refine .bind .call fun _ => ?_
  split
  · exact .fail _
  · exact processAllocations_completes _ _ _ _

theorem processLineage_completes (hf : f.Reported) (source destination : Option TrackedBalance) :
    Completes (processLineage d e f source destination) (processLineage d e (.none f.now) source destination) := by
  refine .bind (.annotate (validateLineageProvider_completes source)) fun provider => .bind ?_ fun _ => ?_
  · unfold creditDestination
    split
    · split
      · exact .annotate (processLineageCredit_completes hf _ _)
      · exact .pure _
    · exact .pure _
  · unfold debitSource
    split
    · split
      · exact .annotate (processLineageDebit_completes hf _ _)
      · exact .pure _
    · exact .pure _

theorem attempt_completes (hf : f.Reported) (hok : (attempt d e f s).1 = .ok ()) :
    (attempt d e f s).2 = (attempt d e (.none f.now) s).2 := by
  have hboth : Completes (processLineageFromOutbox d e f) (processLineageFromOutbox d e (.none f.now)) := by
    refine .bind .call fun _ => .bind ?_ fun _ => .call
    simp only [hf.1,hf.2.1,Faults.none]
    exact processLineage_completes hf _ _
  have hrun := hboth ⟨s,f.calls⟩ () (processLineageFromOutbox d e f ⟨s,f.calls⟩).2 (Prod.ext hok rfl)
  exact (congrArg (fun r => r.2.state) hrun).symm

def attempts (d : Directory) (e : LineageEntry) (fs : List Faults) (s : LineageState) : LineageState :=
  fs.foldl (fun s f => (attempt d e f s).2) s

def Resumable (d : Directory) (e : LineageEntry) : List Faults → LineageState → Prop
  | [], _ => True
  | f :: fs, s => Stopped d e s (attempt d e f s).2 ∧ Resumable d e fs (attempt d e f s).2

theorem Resumable.attempt_eq {fs : List Faults} (h : Resumable d e fs s) (hready : Ready e s) (now : ℤ) :
    (attempt d e (.none now) (attempts d e fs s)).1 = (attempt d e (.none now) s).1 ∧
      (attempt d e (.none now) (attempts d e fs s)).2.ledger = (attempt d e (.none now) s).2.ledger := by
  induction fs generalizing s with
  | nil => exact ⟨rfl,rfl⟩
  | cons f fs ih =>
    obtain ⟨hready',hresult,hledger⟩ := h.1.resumes hready now
    obtain ⟨hresult',hledger'⟩ := ih h.2 hready'
    exact ⟨hresult'.trans hresult,hledger'.trans hledger⟩

def Fresh (e : LineageEntry) (s : LineageState) : Prop :=
  ∀ t ∈ s.ledger.transactions, ∀ provider, t.reference ≠ releaseReference e.reference provider

theorem Fresh.ready (h : Fresh e s) : Ready e s := by
  intro source _ m _ hstored
  obtain ⟨t,ht,href⟩ := List.any_eq_true.mp hstored
  exact absurd (of_decide_eq_true href) (h t ht m.provider)

/-- An entry whose attempts stop where they can be resumed has the result and the shadow transactions of one uninterrupted
attempt, whatever the attempt that succeeds at last was. -/
theorem lineage_resumable (d : Directory) (e : LineageEntry) (fs : List Faults) (s : LineageState) (f : Faults)
    (hfresh : Fresh e s) (hstops : Resumable d e fs s) :
    (attempt d e (.none f.now) (attempts d e fs s)).1 = (attempt d e (.none f.now) s).1 ∧
      (attempt d e (.none f.now) (attempts d e fs s)).2.ledger = (attempt d e (.none f.now) s).2.ledger ∧
      (f.Reported → (attempt d e f (attempts d e fs s)).1 = .ok () →
        (attempt d e f (attempts d e fs s)).2.ledger = (attempt d e (.none f.now) s).2.ledger) := by
  obtain ⟨hresult,hledger⟩ := hstops.attempt_eq hfresh.ready f.now
  refine ⟨hresult,hledger,fun hf hok => ?_⟩
  rw [attempt_completes hf hok,hledger]

/-- Every identity stands for itself, every indicator is a balance, and every posting is accepted. -/
def openDirectory : Directory := ⟨some,fun indicator _ => indicator,fun _ _ => none⟩

def twoProviders : LineageState where
  ledger := ⟨[],fun b => if b = "@acme_ann_lineage" ∨ b = "@brix_ann_lineage" then 60 else 0,fun _ => 0⟩
  mappings := [⟨"a","acme","@acme_ann_lineage","@ann_lineage","ann",1⟩,⟨"a","brix","@brix_ann_lineage","@ann_lineage","ann",2⟩]

def transfer (strategy : Strategy) (inflight : Bool) : LineageEntry :=
  ⟨"t","r","USD",100,inflight,"",some ⟨"a","USD","ann",true,strategy⟩,some ⟨"b","USD","bob",true,.fifo⟩⟩

def deposit : LineageEntry := ⟨"t","r","USD",100,false,"acme",none,some ⟨"a","USD","ann",true,.fifo⟩⟩

def stoppedAfter (calls : ℕ) : Faults := { Faults.none 3 with calls := some calls }

def outcome (r : Except String Unit × LineageState) : Except String Unit × List (String × ℤ) :=
  (r.1,r.2.ledger.transactions.map fun t => (t.reference,t.amount))

def retried (e : LineageEntry) (calls : ℕ) : Except String Unit × LineageState :=
  attempt openDirectory e (.none 3) (attempts openDirectory e [stoppedAfter calls] twoProviders)

theorem transfer_resumes_at_second_provider :
    (attempt openDirectory (transfer .fifo false) (stoppedAfter 10) twoProviders).1 =
        .error "lineage debit processing failed: call failed" ∧
      (retried (transfer .fifo false) 10).2.ledger =
        (attempt openDirectory (transfer .fifo false) (.none 3) twoProviders).2.ledger := by
  refine ⟨by decide,?_⟩
  have hapart : (receiver openDirectory (transfer .fifo false)).Apart "a" := by
    intro r hr
    cases hr
    decide
  have hdebits : Debits openDirectory (transfer .fifo false) ⟨"a","USD","ann",true,.fifo⟩ twoProviders
      (attempt openDirectory (transfer .fifo false) (stoppedAfter 10) twoProviders).2 :=
    ⟨rfl,rfl,.inl rfl,hapart,by decide⟩
  have hseparable : Separable (transfer .fifo false) ⟨"a","USD","ann",true,.fifo⟩ (twoProviders.getLineageMappings "a")
      "@ann_lineage" (receiver openDirectory (transfer .fifo false)) := by
    refine ⟨rfl,by decide,by decide,by decide,by decide,by decide,?_⟩
    intro r hr
    cases hr
    decide
  have hstop : Resumable openDirectory (transfer .fifo false) [stoppedAfter 10] twoProviders :=
    ⟨.between hdebits rfl hseparable 1 rfl,trivial⟩
  exact (lineage_resumable openDirectory (transfer .fifo false) [stoppedAfter 10] twoProviders (.none 3)
    (fun t ht => by cases ht) hstop).2.1

/-- A stored credit blocks every retry; a stored release is skipped together with its receipt; the shares of a
proportional debit, and of one that only holds the funds, are computed afresh after some of them are stored. -/
theorem retry_differs_from_uninterrupted :
    (outcome (attempt openDirectory deposit (.none 3) twoProviders) = (.ok (),[("r_shadow_acme",100)]) ∧
      outcome (retried deposit 4) = (.error ("lineage credit processing failed: failed to queue shadow credit " ++
        "transaction: reference r_shadow_acme has already been used"),[("r_shadow_acme",100)])) ∧
    (outcome (attempt openDirectory (transfer .fifo false) (.none 3) twoProviders) = (.ok (),
        [("r_release_acme",60),("r_receive_acme",60),("r_release_brix",40),("r_receive_brix",40)]) ∧
      outcome (retried (transfer .fifo false) 8) = (.ok (),
        [("r_release_acme",60),("r_release_brix",40),("r_receive_brix",40)])) ∧
    (outcome (attempt openDirectory (transfer .proportional false) (.none 3) twoProviders) = (.ok (),
        [("r_release_acme",50),("r_receive_acme",50),("r_release_brix",50),("r_receive_brix",50)]) ∧
      outcome (retried (transfer .proportional false) 10) = (.ok (),
        [("r_release_acme",50),("r_receive_acme",50),("r_release_brix",43),("r_receive_brix",43)])) ∧
    outcome (attempt openDirectory (transfer .fifo true) (.none 3) twoProviders) = (.ok (),
        [("r_release_acme",60),("r_receive_acme",60),("r_release_brix",40),("r_receive_brix",40)]) ∧
      outcome (retried (transfer .fifo true) 10) = (.ok (),[("r_release_acme",60),("r_receive_acme",60)]) := by
  decide +kernel

end LedgerForge.Lineage
