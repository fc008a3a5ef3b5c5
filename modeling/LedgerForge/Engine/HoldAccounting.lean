import LedgerForge.Engine.Runs
import LedgerForge.Journal.Settled

/-! # Hold accounting

As long as nobody voids an intent that has not become a hold, the inflight counters of every balance are what the
holds on it still reserve, and settling one hold leaves every other hold alone.
-/

namespace LedgerForge.Engine

open VersionedStore Database List Float64 Row

/-- The request does not void a queued intent. -/
def Operation.VoidsHold (e : Engine) : Operation → Prop
  | .void id _ _ _ => ∀ i ∈ e.database.transactions, i.transactionID = id →
      ¬ (i.status = .queued ∧ i.controls.inflight = true)
  | _ => True

instance decidableVoidsHold (e : Engine) : (op : Operation) → Decidable (op.VoidsHold e)
  | .void _ _ _ _ => inferInstanceAs (Decidable (∀ i ∈ _, _ → ¬ (_ ∧ _)))
  | .createBalance _ _ | .post _ _ _ _ _ | .postLeg _ _ _ _ _ _ | .work _ _ | .workBatch _ _ _ | .reject _
  | .recover _ _ _ _ | .commit _ _ _ _ _ | .commitQueued _ _ _ _ _ | .refund _ _ _ _ _ => .isTrue trivial

variable {e : Engine} {op : Operation} {h : Row}

/-- Only a void request writes void rows. -/
theorem Operation.Writes.void {r : Row} (h : op.Writes e r) (hv : r.status = .void) :
    ∃ id reference newID queuedDebit, op = .void id reference newID queuedDebit ∧
      SettlingRow e.database.transactions id newID reference r := by
  have hchild : ∀ {i : Row}, ChildRow e.database.transactions i r → False := fun hc => by
    rcases hc.status with hs | hs | hs <;> rw [hv] at hs <;> cases hs
  have hrequest : ∀ {request : Request} {reference queuedParent id parent : String},
      RequestRow request reference queuedParent id parent r → False := fun hc => by
    rcases hc.kind with (hs | hs) | hs | hs <;> rw [hv] at hs <;> cases hs
  cases op with
  | createBalance => exact h.elim
  | post => exact (hrequest h).elim
  | postLeg => exact (hrequest h).elim
  | work =>
    obtain ⟨t,i,-,-,hc,-⟩ := h
    exact (hchild hc).elim
  | workBatch =>
    obtain ⟨i,hc,-⟩ := h
    exact (hchild hc).elim
  | reject =>
    obtain ⟨t,i,-,-,hc,-⟩ := h
    exact (hchild hc).elim
  | recover =>
    obtain ⟨i,-,hc,-⟩ := h
    exact (hchild hc).elim
  | commit =>
    have hs := h.2.1
    rw [hv] at hs
    cases hs
  | commitQueued =>
    have hs := h.2.1
    rw [hv] at hs
    cases hs
  | void id reference newID queuedDebit => exact ⟨id,reference,newID,queuedDebit,rfl,h.1⟩
  | refund id skipQueue =>
    obtain ⟨o,-,-,-,hc⟩ := h
    have hs := hc.status
    split at hs
    · rw [hv] at hs
      cases hs
    · rcases hs with hs | hs <;> rw [hv] at hs <;> cases hs

theorem Step.voidsRelease {e' : Engine} (hv : VoidsRelease e.database.transactions)
    (hop : op.VoidsHold e) (h : Step e op e') : VoidsRelease e'.database.transactions := by
  cases h with
  | created id currency created =>
    subst created
    exact (createBalance_frame e.database id currency).1.symm ▸ hv
  | appended rs appended writes =>
    rw [appended.posted.transactions]
    intro r hr hstatus
    rcases mem_append.mp hr with hr | hr
    · obtain ⟨h,hh,hrest⟩ := hv r hr hstatus
      exact ⟨h,mem_append_left _ hh,hrest⟩
    obtain ⟨id,reference,newID,queuedDebit,rfl,hsettling⟩ := (writes r hr).void hstatus
    obtain ⟨h,hh,hid,hkind⟩ := hsettling.target
    exact ⟨h,mem_append_left _ hh,hkind.resolve_right (hop h hh hid),hsettling.parent.trans hid.symm⟩

def Operation.settled : Operation → Option String
  | .commit id _ _ _ _ => some id
  | .commitQueued id _ _ _ _ => some id
  | .void id _ _ _ => some id
  | _ => none

theorem Operation.Writes.settled {r : Row} (h : op.Writes e r) {id : String}
    (hid : op.settled = some id) : ∃ newID reference, SettlingRow e.database.transactions id newID reference r := by
  cases op <;> cases hid
  all_goals exact ⟨_,_,h.1⟩

theorem ExtendsAll.unsettled {queue : List Transaction} {rows rs : List Row} (h : ExtendsAll queue rows rs) {x : Row}
    (hx : ∀ r ∈ rs, r.parentTransaction ≠ x.transactionID ∧
      ∀ q ∈ rows ++ rs, q.IsQueuedCommit → r.parentTransaction ≠ q.transactionID) :
    unsettled (rows ++ rs) x = unsettled rows x := by
  induction h with
  | nil rows => rw [append_nil]
  | @cons rows rs r head tail ih =>
    have hnot : ¬ Settles rows x r := by
      rintro ⟨-,hdirect | ⟨q,hq,hcommit,-,hvia⟩⟩
      · exact (hx r mem_cons_self).1 hdirect
      · exact (hx r mem_cons_self).2 q (mem_append_left _ hq) hcommit hvia
    rw [← singleton_append,← append_assoc,ih fun y hy => ?_,LedgerForge.unsettled,LedgerForge.unsettled,
      settledAmount_append head.unused,if_neg hnot,add_zero]
    obtain ⟨hparent,hcommits⟩ := hx y (mem_cons_of_mem _ hy)
    refine ⟨hparent,fun q hq => hcommits q ?_⟩
    rwa [append_assoc] at hq

theorem Step.unsettled {e' : Engine} (hs : e.Sound) (hstep : Step e op e') {id : String}
    (hid : op.settled = some id) (hne : h.transactionID ≠ id) :
    LedgerForge.unsettled e'.database.transactions h = LedgerForge.unsettled e.database.transactions h := by
  have hj := (hstep.sound hs).journal
  cases hstep with
  | created key currency created =>
    subst created
    rw [(createBalance_frame e.database key currency).1]
  | appended rs appended writes =>
    rw [appended.posted.transactions] at hj ⊢
    refine appended.rows.unsettled fun r hr => ?_
    obtain ⟨newID,reference,hsettling⟩ := (writes r hr).settled hid
    obtain ⟨p,hp,hpid,hkind⟩ := hsettling.target
    refine ⟨fun he => hne (he.symm.trans hsettling.parent),fun q hq hcommit he => ?_⟩
    obtain rfl := hj.eq_of_id hq (mem_append_left _ hp) (he.symm.trans (hsettling.parent.trans hpid.symm))
    have haction := hs.journal.inflight_action hp hkind
    rw [hcommit.2] at haction
    cases haction

theorem openCommits_nonneg {rows : List Row} (hb : Bounded rows) (hh : h ∈ rows) (hold : h.status = .inflight)
    (haction : h.queueAction = .unset) : 0 ≤ openCommits rows h := by
  refine sum_nonneg fun v hv => ?_
  obtain ⟨q,hq,rfl⟩ := mem_map.mp hv
  split
  · rename_i hc
    refine (hb.positive h hh hold (fun ha => ?_) q (mem_kids.mpr ⟨hq,hc.2⟩) ?_).le
    · rw [haction] at ha
      cases ha
    · rw [settlesHold,hc.1.1.1]
      rfl
  · exact le_rfl

theorem Sound.unsettled_nonneg (hs : e.Sound) (hh : h ∈ e.database.transactions)
    (hold : h.status = .inflight) : 0 ≤ LedgerForge.unsettled e.database.transactions h := by
  obtain ⟨a,ha⟩ := (hs.rows h hh).amount
  have hbound := hs.bounded.bound hh hold ha
  rw [consumed_eq_settled hs.bounded hs.journal.ids_nodup hh hold] at hbound
  have hopen := openCommits_nonneg hs.bounded hh hold (hs.journal.inflight_action hh (.inl hold))
  rw [LedgerForge.unsettled,minor_of_some ha]
  omega

theorem voidsRelease_run (ops : List Operation) (h : Along (fun e op => op.VoidsHold e) empty ops) :
    VoidsRelease (run ops).database.transactions :=
  along_invariant (P := fun e => VoidsRelease e.database.transactions)
    (fun _ _ _ _ hv hop hstep => hstep.voidsRelease hv hop) (fun _ hr => absurd hr not_mem_nil) ops h

theorem Sound.inflight_held (hs : e.Sound) (hv : VoidsRelease e.database.transactions) {c : StoredBalance}
    (hc : c ∈ e.database.balances) : c.value.counters.inflightDebit = held source e.database.transactions c.key ∧
      c.value.counters.inflightCredit = held destination e.database.transactions c.key := by
  rw [hs.accounted.replayed c.key c ((mem_balances_iff hs.accounted.unique).mp hc)]
  exact replay_inflight hs.journal hv c.key

/-- In every state of a run that voids no queued intent the inflight counters are the reservations of the holds,
no hold is settled beyond its amount, and settling one transaction leaves every other hold alone. -/
theorem hold_accounting (ops : List Operation) (h : Along (fun e op => op.VoidsHold e) empty ops) :
    (∀ c ∈ (run ops).database.balances,
      c.value.counters.inflightDebit = held source (run ops).database.transactions c.key ∧
      c.value.counters.inflightCredit = held destination (run ops).database.transactions c.key) ∧
    (∀ x ∈ (run ops).database.transactions, x.status = .inflight → 0 ≤ LedgerForge.unsettled (run ops).database.transactions x) ∧
    ∀ op id, op.settled = some id → ∀ x ∈ (run ops).database.transactions, x.status = .inflight → x.transactionID ≠ id →
      LedgerForge.unsettled ((run ops).step op).database.transactions x =
        LedgerForge.unsettled (run ops).database.transactions x := by
  have hs := sound_run ops
  refine ⟨fun c hc => ?_,fun x hx hold => ?_,fun op id hid x _ _ hne => ?_⟩
  · exact hs.inflight_held (voidsRelease_run ops h) hc
  · exact hs.unsettled_nonneg hx hold
  · exact (step_ok hs op).unsettled hs hid hne

def holdRequest (reference : String) (amount : ℤ) (skipQueue : Bool) : Request where
  source := "bln_a"
  destination := "bln_b"
  reference := reference
  currency := "USD"
  amount := ofInt 0
  amountString := ""
  preciseAmount := some amount
  precision := ofInt 100
  rate := ofInt 1
  overdraftLimit := ofInt 0
  allowOverdraft := true
  inflight := true
  skipQueue := skipQueue
  atomic := false
  scheduled := false

def heldFunds : List Operation :=
  [.createBalance "bln_a" "USD",.createBalance "bln_b" "USD",.post (holdRequest "h" 100 true) none "txn_1" "txn_2" none]

def heldAndQueued : List Operation := heldFunds ++ [.post (holdRequest "q" 50 false) none "txn_3" "txn_4" none]

def executedAndCommitted : List Operation := heldAndQueued ++ [.work 0 none,.commit "txn_1" (some 30) "c" "txn_5" none]

theorem executed_and_committed_accounted : Along (fun e op => op.VoidsHold e) empty executedAndCommitted ∧
    (run executedAndCommitted).database.transactions.length = 4 ∧ ∀ c ∈ (run executedAndCommitted).database.balances,
      c.value.counters.inflightDebit = held source (run executedAndCommitted).database.transactions c.key :=
  ⟨by decide +kernel,by decide +kernel,fun c hc => ((hold_accounting executedAndCommitted (by decide +kernel)).1 c hc).1⟩

/-- Voiding the queued intent releases half of the funds that the hold reserves. -/
theorem void_queued_releases_hold :
    (∃ i ∈ (run heldAndQueued).database.transactions, i.transactionID = "txn_3" ∧ i.status = .queued) ∧
    ∃ c ∈ (run (heldAndQueued ++ [.void "txn_3" "v" "txn_5" none])).database.balances,
      c.key = "bln_a" ∧ c.value.counters.inflightDebit = 50 ∧
      held source (run (heldAndQueued ++ [.void "txn_3" "v" "txn_5" none])).database.transactions c.key = 100 := by
  decide +kernel

end LedgerForge.Engine
