import LedgerForge.Engine.GroupRuns

/-! # Settling shadow holds

A commit or void of a tracked hold is carried over to the holds that shadow it. Every shadow is committed or voided on its
own; a shadow that is already settled is recognised by the text of the error.
-/

namespace LedgerForge.Lineage

open Engine Database

inductive ShadowAction
  | commit | void
deriving DecidableEq

/-- What one call for a shadow brings along: generated texts, the answer of a query, and a failure outside of the ledger's
checks. -/
structure ShadowCall where
  newID : String
  reference : String
  queuedDebit : Option ℤ
  failure : Option String
deriving DecidableEq

/-- What a run of the work meets: a failure of its query, and the calls by shadow. -/
structure ShadowCalls where
  unread : Option String
  call : String → ShadowCall

/-- Nothing outside of the ledger fails. -/
def ShadowCalls.Undisturbed (w : ShadowCalls) : Prop := w.unread = none ∧ ∀ id, (w.call id).failure = none

/-- A shadow is committed with its whole amount, whatever was committed on the parent. -/
def ShadowAction.operation (a : ShadowAction) (shadow : Transaction) (c : ShadowCall) : Operation :=
  match a with
  | .commit => .commit shadow.transactionID shadow.preciseAmount c.reference c.newID c.queuedDebit
  | .void => .void shadow.transactionID c.reference c.newID c.queuedDebit

def contains (message words : String) : Bool := words.toList <:+: message.toList

def isShadowProcessed (message : String) : Bool :=
  contains message "already committed" || contains message "not in inflight status"

def refusal (e : Engine) (op : Operation) : Option String :=
  match e.perform op with
  | .error message => some message
  | .ok _ => if e.admissible op then none else some "duplicate key value violates unique constraint"

def settleShadow (a : ShadowAction) (e : Engine) (shadow : Transaction) (c : ShadowCall) : Engine × Option String :=
  match c.failure with
  | some message => (e,some message)
  | none => (e.step (a.operation shadow c),refusal e (a.operation shadow c))

/-- Go through the shadows and collect the failed ones. -/
def settleShadows (a : ShadowAction) (w : ShadowCalls) : Engine → List Transaction → Engine × List String
  | e, [] => (e,[])
  | e, shadow :: shadows =>
    let (e₁,error) := settleShadow a e shadow (w.call shadow.transactionID)
    let (e₂,failed) := settleShadows a w e₁ shadows
    (e₂,if (error.map isShadowProcessed).getD true then failed else shadow.transactionID :: failed)

/-- The transactions with the parent in their `shadow_for` control, which settlements take over from their hold. -/
def getTransactionsByShadowFor (shadowFor : String → String) (db : Database) (parent : String) :
    Except String (List Transaction) :=
  (db.transactions.filter fun r => shadowFor r.transactionID = parent).mapM Row.toTransaction

def shadowWork (a : ShadowAction) (verb : String) (shadowFor : String → String) (parent : String) (w : ShadowCalls)
    (e : Engine) : Engine × Option String :=
  match w.unread with
  | some message => (e,some ("failed to get shadow transactions: " ++ message))
  | none =>
    match getTransactionsByShadowFor shadowFor e.database parent with
    | .error message => (e,some ("failed to get shadow transactions: " ++ message))
    | .ok shadows =>
      let (e,failed) := settleShadows a w e shadows
      (e,if failed = [] then none else some ("failed to " ++ verb ++ " " ++ toString failed.length ++
        " shadow transactions: [" ++ " ".intercalate failed ++ "]"))

def commitShadowTransactions := shadowWork .commit "commit"

def voidShadowTransactions := shadowWork .void "void"

def runShadowWork : ShadowAction → (String → String) → String → ShadowCalls → Engine → Engine × Option String
  | .commit => commitShadowTransactions
  | .void => voidShadowTransactions

inductive OutboxStatus
  | pending | processing | completed | failed
deriving DecidableEq

structure ShadowEntry where
  action : ShadowAction
  status : OutboxStatus
  attempts : ℕ
  maxAttempts : ℕ
deriving DecidableEq

namespace ShadowEntry

def claimable (entry : ShadowEntry) : Bool :=
  entry.status ∈ [.pending,.processing] && entry.attempts < entry.maxAttempts

def markOutboxCompleted (entry : ShadowEntry) : ShadowEntry := { entry with status := .completed }

def markOutboxFailed (entry : ShadowEntry) : ShadowEntry :=
  { entry with status := if entry.maxAttempts ≤ entry.attempts+1 then .failed else .pending, attempts := entry.attempts+1 }

def processEntry (shadowFor : String → String) (parent : String) (s : Engine × ShadowEntry) (w : ShadowCalls) :
    Engine × ShadowEntry :=
  if s.2.claimable then
    match runShadowWork s.2.action shadowFor parent w s.1 with
    | (e,none) => (e,s.2.markOutboxCompleted)
    | (e,some _) => (e,s.2.markOutboxFailed)
  else s

end ShadowEntry

/-- Nothing is left of a shadow: it is no hold, it was voided, or it is used up. -/
def Settled (db : Database) (t : Transaction) : Prop :=
  t.isInflightTransaction = true → db.isParentTransactionVoid t.transactionID = true ∨
    ∃ left ≤ 0, db.calculateRemainingAmount t = .ok left

instance (db : Database) (t : Transaction) : Decidable (Settled db t) :=
  decidable_of_iff (t.isInflightTransaction = true → db.isParentTransactionVoid t.transactionID = true ∨
      ∃ left ∈ (db.calculateRemainingAmount t).toOption, left ≤ 0) <| by
    unfold Settled
    cases db.calculateRemainingAmount t <;> simp [Except.toOption]

def VoidedHold (db : Database) (t : Transaction) : Prop :=
  t.isInflightTransaction = true ∧ db.isParentTransactionVoid t.transactionID = true
deriving Decidable

theorem isShadowProcessed_settled : ∀ message ∈ ["transaction is not in inflight status",
    "cannot commit: transaction already committed","cannot void: transaction already committed"],
    isShadowProcessed message = true := by decide +kernel

variable {a : ShadowAction} {e : Engine} {t : Transaction} {c : ShadowCall} {w : ShadowCalls}

theorem perform_of_fetch_error {message : String}
    (h : e.database.fetchAndValidateInflightTransaction t.transactionID = .error message) :
    e.perform (a.operation t c) = .error message := by
  cases a with
  | commit =>
    rw [ShadowAction.operation,perform,commitInflightTransaction,h]
    rfl
  | void =>
    rw [ShadowAction.operation,perform,voidInflightTransaction,h]
    rfl

theorem perform_of_used_up {left : ℤ} (hfetch : e.database.fetchAndValidateInflightTransaction t.transactionID = .ok t)
    (hleft : e.database.calculateRemainingAmount t = .ok left) (hle : left ≤ 0) :
    ∃ message, e.perform (a.operation t c) = .error message ∧ isShadowProcessed message = true := by
  cases a with
  | commit =>
    refine ⟨_,?_,isShadowProcessed_settled "cannot commit: transaction already committed" (by simp)⟩
    rw [ShadowAction.operation,perform,commitInflightTransaction,hfetch,ok_bind,
      validateAndUpdateAmount,hleft,ok_bind,if_pos hle]
    rfl
  | void =>
    refine ⟨_,?_,isShadowProcessed_settled "cannot void: transaction already committed" (by simp)⟩
    rw [ShadowAction.operation,perform,voidInflightTransaction,hfetch,ok_bind,hleft,ok_bind,
      if_pos hle]
    rfl

theorem perform_settled (hget : e.database.getTransaction t.transactionID = .ok t) (hs : Settled e.database t) :
    ∃ message, e.perform (a.operation t c) = .error message ∧
      (isShadowProcessed message = false ↔ VoidedHold e.database t) := by
  have hfetch : e.database.fetchAndValidateInflightTransaction t.transactionID =
      if !t.isInflightTransaction then .error "transaction is not in inflight status"
      else if e.database.isParentTransactionVoid t.transactionID then .error "transaction has already been voided"
      else .ok t := by
    rw [fetchAndValidateInflightTransaction,hget]
    rfl
  by_cases hinflight : t.isInflightTransaction = true
  · by_cases hvoid : e.database.isParentTransactionVoid t.transactionID = true
    · rw [hinflight,hvoid] at hfetch
      refine ⟨_,perform_of_fetch_error hfetch,?_⟩
      exact iff_of_true (by decide +kernel) ⟨hinflight,hvoid⟩
    obtain ⟨left,hle,hleft⟩ := (hs hinflight).resolve_left hvoid
    simp only [hinflight,hvoid] at hfetch
    obtain ⟨message,hperform,hprocessed⟩ := @perform_of_used_up a e t c left hfetch hleft hle
    exact ⟨message,hperform,iff_of_false (by simp [hprocessed]) fun h => hvoid h.2⟩
  · rw [Bool.eq_false_of_not_eq_true hinflight] at hfetch
    refine ⟨_,perform_of_fetch_error hfetch,iff_of_false ?_ fun h => hinflight h.1⟩
    rw [isShadowProcessed_settled "transaction is not in inflight status" (by simp)]
    decide

theorem step_of_error {op : Operation} {message : String} (h : e.perform op = .error message) : e.step op = e := by
  rw [step,h]
  split <;> rfl

theorem settleShadows_settled (hw : w.Undisturbed) {shadows : List Transaction}
    (hget : ∀ t ∈ shadows, e.database.getTransaction t.transactionID = .ok t) (hs : ∀ t ∈ shadows, Settled e.database t) :
    settleShadows a w e shadows =
      (e,(shadows.filter fun t => VoidedHold e.database t).map Transaction.transactionID) := by
  induction shadows with
  | nil => rfl
  | cons t shadows ih =>
    rw [List.forall_mem_cons] at hget hs
    obtain ⟨message,hperform,hfails⟩ := @perform_settled a e t (w.call t.transactionID) hget.1 hs.1
    have hcall : settleShadow a e t (w.call t.transactionID) = (e,some message) := by
      rw [settleShadow,hw.2 t.transactionID]
      simp only [step_of_error hperform,refusal,hperform]
    rw [settleShadows,hcall]
    simp only [ih hget.2 hs.2,Option.map_some,Option.getD_some]
    by_cases hvoided : VoidedHold e.database t
    · simp [hvoided,hfails.mpr hvoided]
    · have hprocessed : isShadowProcessed message = true := by simpa using hfails.not.mpr hvoided
      simp [hvoided,hprocessed]

variable {shadowFor : String → String} {parent : String} {shadows : List Transaction}

theorem settleShadows_steps (shadows : List Transaction) : ∃ ops : List Operation,
    (settleShadows a w e shadows).1 = ops.foldl step e ∧ ∀ op ∈ ops, ∃ t c, op = a.operation t c := by
  induction shadows generalizing e with
  | nil => exact ⟨[],rfl,by simp⟩
  | cons t shadows ih =>
    obtain ⟨ops,hops,hform⟩ := @ih (settleShadow a e t (w.call t.transactionID)).1
    cases hfailure : (w.call t.transactionID).failure with
    | some message =>
      refine ⟨ops,?_,hform⟩
      simp only [settleShadow,hfailure] at hops
      simp only [settleShadows,settleShadow,hfailure]
      exact hops
    | none =>
      refine ⟨a.operation t (w.call t.transactionID) :: ops,?_,?_⟩
      · simp only [settleShadow,hfailure] at hops
        simp only [settleShadows,settleShadow,hfailure,List.foldl_cons]
        exact hops
      · rw [List.forall_mem_cons]
        exact ⟨⟨t,_,rfl⟩,hform⟩

theorem runShadowWork_eq (a : ShadowAction) : ∃ verb, runShadowWork a = shadowWork a verb := by
  cases a with
  | commit => exact ⟨"commit",rfl⟩
  | void => exact ⟨"void",rfl⟩

theorem runShadowWork_steps (a : ShadowAction) (w : ShadowCalls) (e : Engine) : ∃ ops : List Operation,
    (runShadowWork a shadowFor parent w e).1 = ops.foldl step e ∧ ∀ op ∈ ops, ∃ t c, op = a.operation t c := by
  obtain ⟨verb,hverb⟩ := runShadowWork_eq a
  rw [hverb,shadowWork]
  cases w.unread with
  | some message => exact ⟨[],rfl,by simp⟩
  | none =>
    cases getTransactionsByShadowFor shadowFor e.database parent with
    | error message => exact ⟨[],rfl,by simp⟩
    | ok shadows => exact settleShadows_steps shadows

/-- The state after some runs, each with failures of its own. -/
def workedOff (a : ShadowAction) (shadowFor : String → String) (parent : String) (runs : List ShadowCalls) (e : Engine) :
    Engine := runs.foldl (fun e w => (runShadowWork a shadowFor parent w e).1) e

theorem workedOff_sound (hs : e.Sound) (runs : List ShadowCalls) : (workedOff a shadowFor parent runs e).Sound := by
  induction runs generalizing e with
  | nil => exact hs
  | cons w runs ih =>
    obtain ⟨ops,hops,-⟩ := @runShadowWork_steps shadowFor parent a w e
    have hone : (runShadowWork a shadowFor parent w e).1.Sound := hops ▸ (sound_foldl hs ops).1
    exact ih hone

theorem get_shadow (hs : e.Sound) (hq : getTransactionsByShadowFor shadowFor e.database parent = .ok shadows)
    (ht : t ∈ shadows) : e.database.getTransaction t.transactionID = .ok t := by
  obtain ⟨r,hr,hread⟩ := mapM_ok_mem hq t ht
  obtain ⟨major,-,-,rfl⟩ := toTransaction_ok hread
  have hfound : e.database.findTransaction (r.asTransaction (Float64.ofRat major) "" false).transactionID = some r :=
    hs.find (List.mem_of_mem_filter hr)
  rw [getTransaction,hfound]
  exact hread

theorem runShadowWork_settled (hs : e.Sound) (hq : getTransactionsByShadowFor shadowFor e.database parent = .ok shadows)
    (hsettled : ∀ t ∈ shadows, Settled e.database t) (hw : w.Undisturbed) :
    (runShadowWork a shadowFor parent w e).1 = e ∧
      ((runShadowWork a shadowFor parent w e).2 = none ↔ ∀ t ∈ shadows, ¬ VoidedHold e.database t) := by
  obtain ⟨verb,hverb⟩ := runShadowWork_eq a
  rw [hverb,shadowWork,hw.1]
  simp [hq,settleShadows_settled hw (fun t ht => get_shadow hs hq ht) hsettled]

namespace ShadowEntry

theorem markOutboxFailed_claimable {entry : ShadowEntry} (h : entry.attempts+1 < entry.maxAttempts) :
    entry.markOutboxFailed.claimable = true := by
  simp [claimable,markOutboxFailed,h,not_le.mpr h]

theorem processEntry_unclaimable {s : Engine × ShadowEntry} (h : s.2.claimable = false) (ws : List ShadowCalls) :
    ws.foldl (processEntry shadowFor parent) s = s := by
  induction ws with
  | nil => rfl
  | cons w ws ih =>
    rw [List.foldl_cons,processEntry,if_neg (by simp [h]),ih]

end ShadowEntry

/-- Work that succeeds completes its entry at once, and work that never succeeds ends it after its last attempt. -/
theorem entry_ends {entry : ShadowEntry} {good : Prop} (hclaim : entry.claimable = true) {ws : List ShadowCalls}
    (hrun : ∀ w ∈ ws, (runShadowWork entry.action shadowFor parent w e).1 = e ∧
      ((runShadowWork entry.action shadowFor parent w e).2 = none ↔ good))
    (henough : entry.maxAttempts ≤ entry.attempts+ws.length) :
    (good → (ws.foldl (ShadowEntry.processEntry shadowFor parent) (e,entry)).2.status = .completed) ∧
      (¬ good → (ws.foldl (ShadowEntry.processEntry shadowFor parent) (e,entry)).2.status = .failed) := by
  induction ws generalizing entry with
  | nil =>
    simp [ShadowEntry.claimable] at hclaim henough
    omega
  | cons w ws ih =>
    rw [List.forall_mem_cons] at hrun
    obtain ⟨⟨hsame,hok⟩,hrest⟩ := hrun
    rw [List.foldl_cons,ShadowEntry.processEntry,if_pos hclaim]
    generalize hr : runShadowWork entry.action shadowFor parent w e = r at hsame hok
    obtain ⟨e',error⟩ := r
    obtain rfl : e' = e := hsame
    cases error with
    | none =>
      have hdone : entry.markOutboxCompleted.claimable = false := by simp [ShadowEntry.claimable,ShadowEntry.markOutboxCompleted]
      rw [ShadowEntry.processEntry_unclaimable hdone]
      exact ⟨fun _ => rfl,fun hbad => absurd (hok.mp rfl) hbad⟩
    | some message =>
      have hbad : ¬ good := fun hgood => by cases hok.mpr hgood
      refine ⟨fun hgood => absurd hgood hbad,fun _ => ?_⟩
      by_cases hlast : entry.maxAttempts ≤ entry.attempts+1
      · have hover : entry.markOutboxFailed.claimable = false := by
          simp [ShadowEntry.claimable,ShadowEntry.markOutboxFailed,hlast]
        rw [ShadowEntry.processEntry_unclaimable hover]
        simp [ShadowEntry.markOutboxFailed,hlast]
      have hmore := ShadowEntry.markOutboxFailed_claimable (not_le.mp hlast)
      refine (ih hmore hrest ?_).2 hbad
      simp only [List.length_cons] at henough
      simp only [ShadowEntry.markOutboxFailed]
      omega

/-- Once every shadow is settled, a further run of the work reports success exactly when no shadow
hold was voided, and an entry for it ends as completed in that case and as failed in the other. -/
theorem shadow_retries_converge (ops : List Operation) (a : ShadowAction) (shadowFor : String → String) (parent : String)
    (runs : List ShadowCalls) (shadows : List Transaction)
    (hshadows : getTransactionsByShadowFor shadowFor (workedOff a shadowFor parent runs (run ops)).database parent = .ok shadows)
    (hsettled : ∀ t ∈ shadows, Settled (workedOff a shadowFor parent runs (run ops)).database t) (entry : ShadowEntry)
    (haction : entry.action = a) (hclaim : entry.claimable = true) (ws : List ShadowCalls) (hws : ∀ w ∈ ws, w.Undisturbed)
    (henough : entry.maxAttempts ≤ entry.attempts+ws.length) :
    (∀ w : ShadowCalls, w.Undisturbed →
      ((runShadowWork a shadowFor parent w (workedOff a shadowFor parent runs (run ops))).2 = none ↔
        ∀ t ∈ shadows, ¬ VoidedHold (workedOff a shadowFor parent runs (run ops)).database t)) ∧
    (ws.foldl (ShadowEntry.processEntry shadowFor parent) (workedOff a shadowFor parent runs (run ops),entry)).2.status =
      if ∀ t ∈ shadows, ¬ VoidedHold (workedOff a shadowFor parent runs (run ops)).database t then .completed else .failed := by
  have hs : (workedOff a shadowFor parent runs (run ops)).Sound := workedOff_sound (sound_run ops) runs
  refine ⟨fun w hw => (runShadowWork_settled hs hshadows hsettled hw).2,?_⟩
  obtain ⟨hgood,hbad⟩ := entry_ends hclaim (fun w hw => runShadowWork_settled hs hshadows hsettled (hws w hw)) henough
  split
  · next h => exact hgood h
  · next h => exact hbad h

def shadowedHold : List Operation := heldFunds ++
  [.post (holdRequest "s" 100 true) none "txn_5" "txn_6" none,.post (holdRequest "r" 60 true) none "txn_7" "txn_8" none]

def shadowOf (id : String) : String := if id ∈ ["txn_5","txn_7","txn_9","txn_a"] then "txn_1" else ""

/-- Identifiers for the settlements, and a lock that the second shadow may not get. -/
def shadowCalls (locked : Bool) : ShadowCalls where
  unread := none
  call id := ⟨if id = "txn_5" then "txn_9" else "txn_a",if id = "txn_5" then "x" else "y",none,
    if locked ∧ id = "txn_7" then some "failed to acquire lock for inflight commit" else none⟩

def twoRuns (a : ShadowAction) : Engine :=
  workedOff a shadowOf "txn_1" [shadowCalls true,shadowCalls false] (run shadowedHold)

theorem undisturbed_shadowCalls : (shadowCalls false).Undisturbed := ⟨rfl,fun _ => rfl⟩

theorem committed_shadows_complete_entry :
    (runShadowWork .commit shadowOf "txn_1" (shadowCalls true) (run shadowedHold)).2 =
      some "failed to commit 1 shadow transactions: [txn_7]" ∧
    ([shadowCalls false].foldl (ShadowEntry.processEntry shadowOf "txn_1") (twoRuns .commit,⟨.commit,.pending,4,5⟩)).2.status =
      .completed := by
  refine ⟨by decide +kernel,?_⟩
  have hread : (getTransactionsByShadowFor shadowOf (twoRuns .commit).database "txn_1").toOption.isSome = true := by
    decide +kernel
  have hall : ∀ t ∈ (getTransactionsByShadowFor shadowOf (twoRuns .commit).database "txn_1").toOption.getD [],
      Settled (twoRuns .commit).database t ∧ ¬ VoidedHold (twoRuns .commit).database t := by decide +kernel
  obtain ⟨shadows,hshadows⟩ := exists_ok hread
  rw [hshadows] at hall
  have hend := (shadow_retries_converge shadowedHold .commit shadowOf "txn_1" [shadowCalls true,shadowCalls false] shadows
    hshadows (fun t ht => (hall t ht).1) ⟨.commit,.pending,4,5⟩ rfl (by decide) [shadowCalls false]
    (by simp [undisturbed_shadowCalls]) (by decide)).2
  exact hend.trans (if_pos fun t ht => (hall t ht).2)

/-- Shadows that the work itself has voided make it fail for ever. -/
theorem voided_shadows_fail_entry :
    (runShadowWork .void shadowOf "txn_1" (shadowCalls false) (twoRuns .void)).2 =
      some "failed to void 2 shadow transactions: [txn_5 txn_7]" ∧
    ((twoRuns .void).database.transactions.filter fun r => r.status = .void).map (fun r => (r.parentTransaction,r.minor)) =
      [("txn_5",100),("txn_7",60)] ∧
    ((List.replicate 5 (shadowCalls false)).foldl (ShadowEntry.processEntry shadowOf "txn_1")
      (twoRuns .void,⟨.void,.pending,0,5⟩)).2.status = .failed := by
  decide +kernel

end LedgerForge.Lineage
