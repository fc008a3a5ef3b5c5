import LedgerForge.Engine.Executors

/-! # Acknowledging duplicates

A worker or a recovery pass that is told that the reference of its queue copy has already been used takes
the intent for processed. References of copies are derived from those of the intents, in one namespace
with the references that clients choose.
-/

namespace LedgerForge

open List Char

def mentions (message words : String) : Bool := words.toList <:+: message.toList.map toLower

def isDuplicateReferenceError (message : String) : Bool :=
  mentions message "duplicate key value violates unique constraint" && mentions message "reference" ||
    mentions message "reference" && mentions message "already been used"

theorem isDuplicateReferenceError_of_ends {message : String} {a b c : List Char} (h : message.toList = a ++ b ++ c)
    (ha : "reference".toList <:+: a.map toLower) (hc : "already been used".toList <:+: c.map toLower) :
    isDuplicateReferenceError message = true := by
  have htext : message.toList.map toLower = a.map toLower ++ b.map toLower ++ c.map toLower := by
    rw [h,map_append,map_append]
  have hreference : mentions message "reference" = true := by
    rw [mentions,htext,append_assoc,decide_eq_true_eq]
    exact ha.trans (prefix_append _ _).isInfix
  have hused : mentions message "already been used" = true := by
    rw [mentions,htext,decide_eq_true_eq]
    exact hc.trans (suffix_append _ _).isInfix
  rw [isDuplicateReferenceError,hreference,hused]
  exact Bool.or_true _

namespace Database

/-- The execution of a queue copy ends at its reference. Other duplicates do not reach the test: the text of a
database error is hidden in its details. -/
def acknowledges (db : Database) (t : Transaction) : Bool :=
  match db.withIntentControls t with
  | .ok t => db.referenceExists t.reference
  | .error _ => false

theorem isDuplicateReferenceError_used (reference : String) : isDuplicateReferenceError
    ("transaction validation failed: reference " ++ reference ++ " has already been used") = true := by
  apply isDuplicateReferenceError_of_ends
  · rw [String.toList_append,String.toList_append]
  all_goals decide +kernel

theorem acknowledges_spec {db : Database} {t : Transaction} (h : db.acknowledges t = true) (queuedDebit : Option ℤ) :
    ∃ message, db.processQueuedTransaction t queuedDebit = .error message ∧ isDuplicateReferenceError message = true := by
  rw [acknowledges] at h
  split at h
  · rename_i t' ht'
    refine ⟨_,?_,isDuplicateReferenceError_used t'.reference⟩
    rw [processQueuedTransaction,ht']
    exact if_pos h
  · cases h

end Database

namespace Engine

open Database

def Operation.reference : Operation → Option String
  | .post request _ _ _ _ => some request.reference
  | .postLeg _ leg _ _ _ _ => some leg.reference
  | .commit _ _ reference _ _ => some reference
  | .commitQueued _ _ reference _ _ => some reference
  | .void _ reference _ _ => some reference
  | .refund id _ _ _ _ => some (id ++ "_refund")
  | _ => none

def Operation.queues : Operation → Bool
  | .post request _ _ _ _ => !request.skipQueue
  | .postLeg request _ _ _ _ _ => !request.skipQueue
  | .commitQueued _ _ _ _ _ => true
  | .refund _ skipQueue _ _ _ => !skipQueue
  | _ => false

/-- The reference of a request is not the one of an intent's copy, and the reference of its own copy is free. -/
def Operation.LeavesCopies (e : Engine) (op : Operation) : Prop :=
  ∀ reference ∈ op.reference, ∀ x ∈ e.database.transactions, (x.IsIntent → reference ≠ x.reference ++ "_q") ∧
    (op.queues = true → x.reference ≠ reference ++ "_q")
deriving Decidable

variable {e : Engine} {r : Row}

/-- What an operation writes is the child of an intent or the row of a request. -/
theorem Operation.Writes.cases {op : Operation} (h : op.Writes e r) :
    (∃ i, ChildRow e.database.transactions i r) ∨ (op.reference = some r.reference ∧
      (r.IsIntent → op.queues = true) ∧ op.newIDs.head? = some r.transactionID) := by
  have hrequest : ∀ {request : Request} {reference queuedParent id parent : String},
      RequestRow request reference queuedParent id parent r → r.IsIntent → (!request.skipQueue) = true := by
    intro request reference queuedParent id parent hr hintent
    have hstatus := hr.status
    split at hstatus
    · split at hstatus <;> rcases hintent with hs | hs <;> rw [hstatus] at hs <;> cases hs
    · rename_i hskip
      simpa using hskip
  cases op with
  | createBalance => exact h.elim
  | post => exact .inr ⟨congrArg some h.reference.symm,hrequest h,congrArg some h.key.symm⟩
  | postLeg => exact .inr ⟨congrArg some h.reference.symm,hrequest h,congrArg some h.key.symm⟩
  | work =>
    obtain ⟨t,i,-,-,hc,-⟩ := h
    exact .inl ⟨i,hc⟩
  | workBatch =>
    obtain ⟨i,hc,-⟩ := h
    exact .inl ⟨i,hc⟩
  | reject =>
    obtain ⟨t,i,-,-,hc,-⟩ := h
    exact .inl ⟨i,hc⟩
  | recover =>
    obtain ⟨i,-,hc,-⟩ := h
    exact .inl ⟨i,hc⟩
  | commit =>
    obtain ⟨hr,hs,-⟩ := h
    refine .inr ⟨congrArg some hr.reference.symm,fun hintent => ?_,congrArg some hr.key.symm⟩
    rcases hintent with hi | hi <;> rw [hs] at hi <;> cases hi
  | commitQueued =>
    obtain ⟨hr,-,-⟩ := h
    exact .inr ⟨congrArg some hr.reference.symm,fun _ => rfl,congrArg some hr.key.symm⟩
  | void =>
    obtain ⟨hr,hs⟩ := h
    refine .inr ⟨congrArg some hr.reference.symm,fun hintent => ?_,congrArg some hr.key.symm⟩
    rcases hintent with hi | hi <;> rw [hs] at hi <;> cases hi
  | refund =>
    obtain ⟨o,-,rfl,-,hr⟩ := h
    refine .inr ⟨congrArg some hr.reference.symm,fun hintent => ?_,congrArg some hr.key.symm⟩
    have hstatus := hr.status
    split at hstatus
    · rcases hintent with hs | hs <;> rw [hstatus] at hs <;> cases hs
    · rename_i hskip
      simpa [Operation.queues] using hskip

def CopiesKept (rows : List Row) : Prop :=
  ∀ i ∈ rows, i.IsIntent → ∀ x ∈ rows, x.reference = i.reference ++ "_q" →
    x.parentTransaction = i.transactionID ∧ x.IsTerminal

variable {i : Row}

theorem ChildRow.terminal {rows : List Row} (h : ChildRow rows i r) : r.IsTerminal := h.status

theorem ChildRow.not_intent {rows : List Row} (h : ChildRow rows i r) : ¬ r.IsIntent := by
  rintro (hi | hi) <;> rcases h.status with hs | hs | hs <;> rw [hi] at hs <;> cases hs

theorem append_q_ne (s : String) : s ≠ s ++ "_q" := by
  intro h
  have hlength := congrArg String.length h
  rw [String.length_append] at hlength
  have : "_q".length = 2 := rfl
  omega

/-- A step whose request leaves the references of copies alone keeps them. -/
theorem Step.copiesKept {e' : Engine} {op : Operation} (hs : e.Sound) (hk : CopiesKept e.database.transactions)
    (hclear : op.LeavesCopies e) (h : Step e op e') : CopiesKept e'.database.transactions := by
  have hsound := h.sound hs
  cases h with
  | created id currency created =>
    rw [created,(createBalance_frame e.database id currency).1]
    exact hk
  | appended rs appended writes =>
    have hrows := appended.posted.transactions
    have hjournal := hsound.journal
    intro i hi hintent x hx href
    rw [hrows] at hi hx hjournal
    rcases mem_append.mp hx with hxold | hxnew
    · rcases mem_append.mp hi with hiold | hinew
      · exact hk i hiold hintent x hxold href
      -- the intent is new, so its own copy reference was free
      rcases (writes i hinew).cases with ⟨j,hj⟩ | ⟨hreference,hqueues,-⟩
      · exact absurd hintent hj.not_intent
      · exact absurd href ((hclear _ hreference x hxold).2 (hqueues hintent))
    · rcases (writes x hxnew).cases with ⟨j,hj⟩ | ⟨hreference,-,hkey⟩
      · have hsame : j = i := by
          apply hjournal.eq_of_reference (mem_append_left _ hj.mem) hi
          exact (String.append_left_inj _).mp (hj.reference.symm.trans href)
        exact hsame ▸ ⟨hj.parent,hj.terminal⟩
      rcases mem_append.mp hi with hiold | hinew
      · exact absurd href ((hclear _ hreference i hiold).1 hintent)
      rcases (writes i hinew).cases with ⟨j,hj⟩ | ⟨-,-,hkey'⟩
      · exact absurd hintent hj.not_intent
      have hid := Option.some.inj (hkey'.symm.trans hkey)
      obtain rfl := hjournal.eq_of_id (mem_append_right _ hinew) (mem_append_right _ hxnew) hid
      exact absurd href (append_q_ne _)

theorem CopiesKept.ended (hs : e.Sound) (hk : CopiesKept e.database.transactions)
    (hi : i ∈ e.database.transactions) (hintent : i.IsIntent) {t : Transaction} (hcopy : CopyOf t i)
    (h : e.database.acknowledges t = true) :
    ∃ r ∈ e.database.transactions, r.parentTransaction = i.transactionID ∧ r.IsTerminal := by
  rw [acknowledges] at h
  split at h
  · rename_i t' ht'
    obtain rfl := withIntentControls_copy hcopy (hs.find hi) ht'
    rw [referenceExists,any_eq_true] at h
    obtain ⟨x,hx,href⟩ := h
    exact ⟨x,hx,hk i hi hintent x hx ((of_decide_eq_true href).trans hcopy.reference)⟩
  · cases h

/-- As long as no request takes the reference of a copy, whatever a worker or a recovery pass acknowledges
as a duplicate has ended. -/
theorem acknowledged_has_ended (ops : List Operation) (h : Along (fun e op => op.LeavesCopies e) empty ops) :
    (∀ t ∈ (run ops).queue, (run ops).database.acknowledges t = true →
      ∃ i ∈ (run ops).database.transactions, t.parentTransaction = i.transactionID ∧ i.IsIntent ∧
        ∃ r ∈ (run ops).database.transactions, r.parentTransaction = i.transactionID ∧ r.IsTerminal) ∧
    ∀ i ∈ (run ops).database.transactions, i.status = .queued → ∀ t, i.toQueuedTransaction = .ok t →
      ∀ copyID, (run ops).database.acknowledges (t.createQueueCopy t.reference copyID) = true →
        ∃ r ∈ (run ops).database.transactions, r.parentTransaction = i.transactionID ∧ r.IsTerminal := by
  have hs := sound_run ops
  have hk : CopiesKept (run ops).database.transactions :=
    along_invariant (fun _ _ _ hs hk hc hstep => hstep.copiesKept hs hk hc) (fun _ hi => absurd hi not_mem_nil) ops h
  constructor
  · intro t ht hack
    obtain ⟨i,hti⟩ := hs.messages t ht
    exact ⟨i,hti.mem,hti.copy.parent,hti.intent,hk.ended hs hti.mem hti.intent hti.copy hack⟩
  · intro i hi hqueued t ht copyID hack
    obtain ⟨amount,text,rfl⟩ := (hs.rows i hi).readable (.inl hqueued) t ht
    exact hk.ended hs hi (.inl hqueued) (copyOf_createQueueCopy i amount text false copyID) hack

/-- A queued transfer that a worker executes and is then delivered again. -/
def deliveredTwice : List Operation :=
  [.createBalance "bln_a" "USD",.createBalance "bln_b" "USD",.post (transferRequest "x" 100) none "txn_1" "txn_2" none,
    .work 0 none]

theorem delivered_twice_has_ended : Along (fun e op => op.LeavesCopies e) empty deliveredTwice ∧
    ∃ t ∈ (run deliveredTwice).queue, (run deliveredTwice).database.acknowledges t = true ∧
      ∃ i ∈ (run deliveredTwice).database.transactions, t.parentTransaction = i.transactionID ∧ i.IsIntent ∧
        ∃ r ∈ (run deliveredTwice).database.transactions, r.parentTransaction = i.transactionID ∧ r.IsTerminal := by
  have hclear : Along (fun e op => op.LeavesCopies e) empty deliveredTwice := by decide
  obtain ⟨t,ht,hack⟩ : ∃ t ∈ (run deliveredTwice).queue, (run deliveredTwice).database.acknowledges t = true := by
    decide +kernel
  exact ⟨hclear,t,ht,hack,(acknowledged_has_ended deliveredTwice hclear).1 t ht hack⟩

def collidingReference : List Operation :=
  [.createBalance "bln_a" "USD",.createBalance "bln_b" "USD",.post (transferRequest "x" 100) none "txn_1" "txn_2" none,
    .post { transferRequest "x_q" 40 with skipQueue := true } none "txn_3" "txn_4" none]

theorem colliding_reference_dropped : (∃ t ∈ (run collidingReference).queue, t.parentTransaction = "txn_1" ∧
      (run collidingReference).database.acknowledges t = true) ∧
    (∃ i ∈ (run collidingReference).database.transactions, i.transactionID = "txn_1" ∧ i.status = .queued) ∧
    ∀ r ∈ (run collidingReference).database.transactions, r.parentTransaction ≠ "txn_1" := by
  decide +kernel

end Engine
end LedgerForge
