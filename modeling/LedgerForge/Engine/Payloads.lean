import LedgerForge.Engine.Coalescing

/-! # Queue payloads and the controls they carry

A worker runs the coalescing executor on the payload as it came before it restores the controls of the
intent. The tables never read controls, so a batch that commits for one payload also commits for the same
payload with another queued parent, and the rows then differ.
-/

namespace LedgerForge

open List Row

namespace Row

def bare (r : Row) : Row := { r with controls := ⟨0,false,false,false,false,.unset,""⟩ }

def relink (q : String) (r : Row) : Row := { r with controls.queuedParent := q }

end Row

theorem hasRejectedChild_bare (rows : List Row) (id : String) :
    hasRejectedChild (rows.map bare) id = hasRejectedChild rows id := by
  unfold hasRejectedChild
  rw [any_map]
  rfl

theorem consumed_bare (rows : List Row) (id : String) : consumed (rows.map bare) id = consumed rows id := by
  have hconsumes : consumes (rows.map bare) id ∘ bare = consumes rows id := by
    funext t
    simp only [Function.comp_apply,consumes,hasRejectedChild_bare]
    rfl
  unfold consumed
  rw [filter_map,hconsumes,map_map]
  rfl

theorem claimSettlement_bare (rows : List Row) (claims : List RefundClaim) (new parent : Row) :
    claimSettlement (rows.map bare) claims new parent.bare = claimSettlement rows claims new parent := by
  have hremaining : withinRemaining (rows.map bare) new parent.bare = withinRemaining rows new parent := by
    simp only [withinRemaining,consumed_bare]
    rfl
  unfold claimSettlement
  rw [hremaining]
  rfl

theorem claimTransactionLifecycle_bare (rows : List Row) (claims : List RefundClaim) (new : Row) :
    claimTransactionLifecycle (rows.map bare) claims new = claimTransactionLifecycle rows claims new := by
  unfold claimTransactionLifecycle
  rw [Keyed.find_map bare (fun _ => rfl)]
  cases Keyed.find transactionID rows new.parentTransaction with
  | none => rfl
  | some parent =>
    simp only [Option.map_some,any_map,claimSettlement_bare]
    rfl

namespace Database

/-- Two databases that differ at most in the controls of their rows. -/
structure SameButControls (db db₂ : Database) : Prop where
  balances : db₂.balances = db.balances
  refundClaims : db₂.refundClaims = db.refundClaims
  transactions : db₂.transactions.map bare = db.transactions.map bare

theorem SameButControls.insertRow {db db₂ db' : Database} (h : SameButControls db db₂) {r : Row}
    (hinsert : db.insertRow r = .ok db') : ∃ db₂', db₂.insertRow r = .ok db₂' ∧
      db₂'.transactions = db₂.transactions ++ [r] ∧ SameButControls db' db₂' := by
  have hi := insertRow_ok hinsert
  have hkept : ∀ {α : Type} (f : Row → α), (∀ x, f x.bare = f x) → db₂.transactions.map f = db.transactions.map f := by
    intro α f hf
    have hcomp : f ∘ bare = f := funext hf
    rw [← hcomp,← map_map,h.transactions,map_map]
  have hfresh : ∀ {f : Row → String} (hf : ∀ x, f x.bare = f x), (∀ x ∈ db.transactions, f x ≠ f r) →
      ∀ x ∈ db₂.transactions, f x ≠ f r := by
    intro f hf hdb x hx he
    obtain ⟨y,hy,hye⟩ := mem_map.mp (hkept f hf ▸ mem_map_of_mem hx)
    exact hdb y hy (hye.trans he)
  have hclaims : claimTransactionLifecycle db₂.transactions db₂.refundClaims r = .ok db'.refundClaims := by
    rw [← claimTransactionLifecycle_bare,h.transactions,claimTransactionLifecycle_bare,h.refundClaims]
    exact hi.lifecycle
  have hfound : ∀ id, db₂.findBalance id = db.findBalance id := by
    intro id
    unfold findBalance
    rw [h.balances]
  obtain ⟨cs,hs⟩ := hi.source
  obtain ⟨cd,hd⟩ := hi.destination
  refine ⟨_,insertRow_of_checks hclaims (hfresh (fun _ => rfl) hi.freshID) (hfresh (fun _ => rfl) hi.freshReference) ?_ ?_,
    rfl,?_,rfl,?_⟩
  · rw [hfound,hs]
    rfl
  · rw [hfound,hd]
    rfl
  · exact h.balances.trans hi.balances.symm
  · rw [hi.transactions,map_append,map_append,h.transactions]

theorem SameButControls.recordTransactions {db db₂ db' : Database} (h : SameButControls db db₂) {ts : List Transaction}
    (hrecord : db.recordTransactions ts = .ok db') : ∃ rs db₂', db'.transactions = db.transactions ++ rs ∧
      db₂.recordTransactions ts = .ok db₂' ∧ db₂'.transactions = db₂.transactions ++ rs := by
  induction ts generalizing db db₂ with
  | nil =>
    cases hrecord
    exact ⟨[],db₂,(append_nil _).symm,rfl,(append_nil _).symm⟩
  | cons t ts ih =>
    obtain ⟨mid,hmid,hrest⟩ := bind_ok hrecord
    obtain ⟨r,hr,hinsert⟩ := bind_ok hmid
    obtain ⟨mid₂,hinsert₂,hrows₂,hsame⟩ := h.insertRow hinsert
    obtain ⟨rs,db₂',hrows,hrec₂,hall₂⟩ := ih hsame hrest
    refine ⟨r :: rs,db₂',?_,?_,?_⟩
    · rw [hrows,(insertRow_ok hinsert).transactions,append_assoc,singleton_append]
    · have hfirst : db₂.recordTransaction t = .ok mid₂ := by
        rw [recordTransaction,hr]
        exact hinsert₂
      rw [Database.recordTransactions,foldlM_cons,hfirst]
      exact hrec₂
    · rw [hall₂,hrows₂,append_assoc,singleton_append]

end Database

def Transaction.relink (q : String) (t : Transaction) : Transaction := { t with queuedParent := q }

namespace Transaction

theorem applyPrecision_relink (q : String) (t : Transaction) :
    (t.relink q).applyPrecision = (t.applyPrecision.1,t.applyPrecision.2.relink q) := by
  have hvalid : (t.relink q).validateMonetaryFields = t.validateMonetaryFields := rfl
  unfold applyPrecision
  rw [hvalid]
  cases t.validateMonetaryFields with
  | error e => rfl
  | ok _ =>
    simp only [applyPrecisionLogic]
    have hamount : (t.relink q).preciseAmount = t.preciseAmount := rfl
    simp only [hamount]
    split_ifs <;> rfl

theorem toRow_relink {q : String} {t : Transaction} {r : Row} (h : t.toRow = .ok r) : (t.relink q).toRow = .ok (r.relink q) := by
  obtain ⟨⟨a,p,ha,hp,hlow,hhigh,rfl⟩,htext⟩ := Database.toRow_ok h
  unfold toRow
  rw [if_neg (show (t.relink q).amountString ≠ "" from htext),show (t.relink q).preciseAmount = some a from ha,
    show (t.relink q).precision.toInt? = some p from hp]
  simp only [not_or.mpr ⟨not_lt.mpr hlow,not_le.mpr hhigh⟩,if_false]
  rfl

end Transaction

def Legs.relink (q : String) (l : Legs) : Legs := { l with transaction := l.transaction.relink q }

theorem Legs.updateBalances_relink (q : String) (l : Legs) :
    (l.relink q).updateBalances = (l.updateBalances.1,l.updateBalances.2.relink q) := by
  have hchecked : (l.transaction.relink q).applyPrecisionChecked =
      l.transaction.applyPrecisionChecked.map fun p => (p.1,p.2.relink q) := by
    unfold Transaction.applyPrecisionChecked
    rw [show (l.transaction.relink q).validate = l.transaction.validate from rfl,Transaction.applyPrecision_relink]
    cases l.transaction.validate <;> rfl
  unfold updateBalances
  rw [show (l.relink q).transaction = l.transaction.relink q from rfl,hchecked]
  cases l.transaction.applyPrecisionChecked with
  | error e => rfl
  | ok p =>
    obtain ⟨amount,t⟩ := p
    simp only [Except.map]
    rw [show canProcessTransaction { t.relink q with preciseAmount := some amount } (l.relink q).source =
      canProcessTransaction { t with preciseAmount := some amount } l.source from rfl]
    cases canProcessTransaction { t with preciseAmount := some amount } l.source <;> rfl

variable {t : Transaction}

theorem applyToShared_relink {q : String} {bs bs' : List Balance} {u : Transaction} {source destination : Balance}
    (hv : t.status ≠ .void) (hc : t.status ≠ .commit) (h : applyToShared bs t source destination = .ok (u,bs')) :
    applyToShared bs (t.relink q) source destination = .ok (u.relink q,bs') := by
  have hlegs : ∀ b c, (Legs.mk (t.relink q) b c).updateBalances =
      ((Legs.mk t b c).updateBalances.1,(Legs.mk t b c).updateBalances.2.relink q) :=
    fun b c => Legs.updateBalances_relink q ⟨t,b,c⟩
  unfold applyToShared Transaction.updateSharedBalance at h ⊢
  rw [Legs.applyTransactionToBalances_plain hv hc] at h
  rw [Legs.applyTransactionToBalances_plain hv hc]
  simp only [hlegs]
  split_ifs at h ⊢
  · rcases hu : (Legs.mk t source source).updateBalances with ⟨_ | e,l⟩ <;> rw [hu] at h <;> cases h
    rfl
  · rcases hu : (Legs.mk t source destination).updateBalances with ⟨_ | e,l⟩ <;> rw [hu] at h <;> cases h
    rfl

theorem buildTransactionExecutionWork_relink {q : String} {final : Transaction} {source destination : Balance}
    (h : t.buildTransactionExecutionWork source destination = (final,false)) :
    (t.relink q).buildTransactionExecutionWork source destination = (final.relink q,false) := by
  unfold Transaction.buildTransactionExecutionWork at h ⊢
  dsimp only at h ⊢
  split_ifs at h with hzero
  · cases h
  rw [if_neg (show ((t.relink q).updateTransactionDetails source destination).preciseAmount ≠ some 0 from hzero)]
  cases h
  rfl

theorem prepareQueuedBatchTransaction_relink {existing : String → Bool} {st st' : BatchState}
    (ht : canCoalesceQueuedTransaction t = .ok ()) (h : prepareQueuedBatchTransaction existing st t = .ok st') :
    ∃ final : Transaction, st'.finalized = st.finalized ++ [final] ∧ ∀ q,
      prepareQueuedBatchTransaction existing st (t.relink q) =
        .ok { st' with finalized := st.finalized ++ [final.relink q] } := by
  obtain ⟨hstatus,-⟩ := canCoalesceQueuedTransaction_ok ht
  obtain ⟨source,destination,applied,final,hs,hd,href,happly,hwork,hfinalized,hreferences⟩ :=
    prepareQueuedBatchTransaction_iff.mp h
  obtain ⟨hv,hc⟩ := updateTransactionDetails_plain hstatus source destination
  exact ⟨final,hfinalized,fun q => prepareQueuedBatchTransaction_iff.mpr ⟨source,destination,applied.relink q,final.relink q,hs,hd,href,
    applyToShared_relink hv hc happly,buildTransactionExecutionWork_relink hwork,rfl,hreferences⟩⟩

theorem batchLoop_frame {existing : String → Bool} {ts : List Transaction} {st st' : BatchState}
    (h : ts.foldlM (prepareQueuedBatchTransaction existing) st = .ok st') :
    ∃ finals, st'.finalized = st.finalized ++ finals ∧ ∀ others,
      ts.foldlM (prepareQueuedBatchTransaction existing) { st with finalized := others } =
        .ok { st' with finalized := others ++ finals } := by
  induction ts generalizing st with
  | nil =>
    cases h
    exact ⟨[],(append_nil _).symm,fun others => by rw [append_nil]; rfl⟩
  | cons t ts ih =>
    obtain ⟨mid,hmid,hrest⟩ := bind_ok h
    obtain ⟨source,destination,applied,final,hs,hd,href,happly,hwork,hfinalized,hreferences⟩ :=
      prepareQueuedBatchTransaction_iff.mp hmid
    obtain ⟨finals,hall,hfinals⟩ := ih hrest
    refine ⟨final :: finals,by rw [hall,hfinalized,append_assoc,singleton_append],fun others => ?_⟩
    have hfirst : prepareQueuedBatchTransaction existing { st with finalized := others } t =
        .ok { mid with finalized := others ++ [final] } :=
      prepareQueuedBatchTransaction_iff.mpr ⟨source,destination,applied,final,hs,hd,href,happly,hwork,rfl,hreferences⟩
    rw [foldlM_cons,hfirst]
    change ts.foldlM _ { mid with finalized := others ++ [final] } = _
    rw [hfinals,append_assoc,singleton_append]

namespace Database

variable {db db' : Database}

/-- Rows are accepted whatever queued parent the first of them names. -/
theorem recordTransactions_relink {t : Transaction} {ts : List Transaction}
    (h : db.recordTransactions (t :: ts) = .ok db') : ∃ r rs, ∀ q, ∃ db₂,
      db.recordTransactions (t.relink q :: ts) = .ok db₂ ∧ db₂.transactions = db.transactions ++ relink q r :: rs := by
  obtain ⟨mid,hmid,hrest⟩ := bind_ok h
  obtain ⟨r,hr,hinsert⟩ := bind_ok hmid
  have hi := insertRow_ok hinsert
  obtain ⟨cs,hs⟩ := hi.source
  obtain ⟨cd,hd⟩ := hi.destination
  have hfirst : ∀ q, db.insertRow (r.relink q) =
      .ok { db with transactions := db.transactions ++ [r.relink q], refundClaims := mid.refundClaims } := fun q =>
    insertRow_of_checks hi.lifecycle hi.freshID hi.freshReference
      (Option.isSome_iff_exists.mpr ⟨cs,hs⟩) (Option.isSome_iff_exists.mpr ⟨cd,hd⟩)
  have hsame : ∀ q, SameButControls mid
      { db with transactions := db.transactions ++ [r.relink q], refundClaims := mid.refundClaims } := by
    intro q
    refine ⟨hi.balances.symm,rfl,?_⟩
    rw [hi.transactions,map_append,map_append]
    rfl
  obtain ⟨rs,-,hrows,-,-⟩ := (hsame "").recordTransactions hrest
  refine ⟨r,rs,fun q => ?_⟩
  obtain ⟨rs',db₂,hrows',hrecord,hall⟩ := (hsame q).recordTransactions hrest
  obtain rfl : rs' = rs := append_cancel_left (hrows'.symm.trans hrows)
  refine ⟨db₂,?_,?_⟩
  · rw [recordTransactions,foldlM_cons,recordTransaction,Transaction.toRow_relink hr]
    change (db.insertRow (r.relink q) >>= fun db => ts.foldlM recordTransaction db) = _
    rw [hfirst]
    exact hrecord
  · rw [hall,append_assoc,singleton_append]

/-- A batch that commits also commits when its leader names another queued parent, which its row then names too. -/
theorem persistQueuedTransactionBatch_relink {leader : Transaction} {rest : List Transaction}
    {queuedDebit : String → Option ℤ} (hl : canCoalesceQueuedTransaction leader = .ok ())
    (h : db.persistQueuedTransactionBatch (leader :: rest) queuedDebit = .ok db') :
    ∃ rows r rs, ∀ q, ∃ db₂, db.persistQueuedTransactionBatch (leader.relink q :: rest) queuedDebit = .ok db₂ ∧
      db₂.transactions = rows ++ relink q r :: rs := by
  obtain ⟨balances,hbalances,h⟩ := bind_ok h
  obtain ⟨st,hst,h⟩ := bind_ok h
  obtain ⟨_,hcurrencies,hst⟩ := bind_ok hst
  obtain ⟨st₁,hfirst,hloop⟩ := bind_ok hst
  obtain ⟨mid,hmid,hrecord⟩ := bind_ok h
  obtain ⟨final,hfinal,hrelinked⟩ := prepareQueuedBatchTransaction_relink hl hfirst
  obtain ⟨finals,hall,hfinals⟩ := batchLoop_frame hloop
  rw [hall,hfinal] at hrecord
  obtain ⟨r,rs,hstored⟩ := recordTransactions_relink hrecord
  refine ⟨mid.transactions,r,rs,fun q => ?_⟩
  obtain ⟨db₂,hdb₂,hrows⟩ := hstored q
  refine ⟨db₂,?_,hrows⟩
  have hprepared : prepareQueuedBatch db.referenceExists (leader.relink q :: rest) balances =
      .ok { st with finalized := final.relink q :: finals } := by
    have hsame : validateQueuedBatchCurrencies (leader.relink q :: rest) = .ok () := hcurrencies
    rw [prepareQueuedBatch,hsame]
    rw [foldlM_cons,hrelinked]
    exact hfinals _
  have hloaded : db.loadBalancesForQueuedBatch queuedDebit (collectQueuedCoalescingBalanceIDs (leader.relink q :: rest)) =
      .ok balances := hbalances
  rw [persistQueuedTransactionBatch,hloaded]
  change (prepareQueuedBatch _ _ balances >>= _) = _
  rw [hprepared]
  change (db.updateBalanceSet st.balances >>= fun db => db.recordTransactions (final.relink q :: finals)) = _
  rw [hmid]
  exact hdb₂

theorem tryRecordQueuedTransactionBatch_relink {leader : Transaction} {siblings : List (String × String)}
    {queuedDebit : String → Option ℤ} (h : db.tryRecordQueuedTransactionBatch leader siblings queuedDebit = .ok db') :
    ∃ rows r rs, ∀ q, ∃ db₂, db.tryRecordQueuedTransactionBatch (leader.relink q) siblings queuedDebit = .ok db₂ ∧
      db₂.transactions = rows ++ relink q r :: rs := by
  obtain ⟨hleader,rest,hrest,hne,hpersist⟩ := Engine.tryRecordQueuedTransactionBatch_ok h
  obtain ⟨rows,r,rs,hstored⟩ := persistQueuedTransactionBatch_relink hleader hpersist
  refine ⟨rows,r,rs,fun q => ?_⟩
  obtain ⟨db₂,hdb₂,hrows⟩ := hstored q
  refine ⟨db₂,?_,hrows⟩
  have hsame : canCoalesceQueuedTransaction (leader.relink q) = .ok () := hleader
  rw [tryRecordQueuedTransactionBatch,hsame]
  rw [hrest]
  change (if rest = [] then _ else _) = _
  rw [if_neg hne]
  exact hdb₂

theorem rejectTransaction_relink {t : Transaction} (h : db.rejectTransaction t = .ok db') :
    ∃ rows r rs, ∀ q, ∃ db₂, db.rejectTransaction (t.relink q) = .ok db₂ ∧ db₂.transactions = rows ++ relink q r :: rs := by
  have hone : ∀ u, db.recordTransactions [u] = db.recordTransaction u := by
    intro u
    exact bind_pure _
  unfold rejectTransaction at h ⊢
  rw [← hone] at h
  obtain ⟨r,rs,hstored⟩ := recordTransactions_relink h
  refine ⟨db.transactions,r,rs,fun q => ?_⟩
  have hrejected : { t.relink q with status := .rejected }.applyPrecision.2 =
      ({ t with status := .rejected }.applyPrecision.2).relink q :=
    congrArg Prod.snd (Transaction.applyPrecision_relink q { t with status := .rejected })
  rw [hrejected,← hone]
  exact hstored q

theorem relinked_ne {db₁ db₂ : Database} {rows rs : List Row} {r : Row} {q₁ q₂ : String} (hq : q₁ ≠ q₂)
    (h₁ : db₁.transactions = rows ++ relink q₁ r :: rs) (h₂ : db₂.transactions = rows ++ relink q₂ r :: rs) :
    db₁ ≠ db₂ := by
  intro he
  rw [he,h₂] at h₁
  have hrow : r.relink q₂ = r.relink q₁ := (List.cons.inj (append_cancel_left h₁)).1
  exact hq (congrArg (fun x : Row => x.controls.queuedParent) hrow).symm

end Database

/-- The control fields of a serialised transaction; `split` says that it has sources or destinations. -/
structure PayloadControls where
  allowOverdraft : Bool
  overdraftLimit : Float64
  inflight : Bool
  atomic : Bool
  skipQueue : Bool
  queuedParent : String
  split : Bool
deriving DecidableEq

/-- A transaction as a worker decodes it. -/
structure Payload where
  transaction : Transaction
  split : Bool
deriving DecidableEq

def Transaction.carrying (t : Transaction) (c : PayloadControls) : Payload where
  transaction := { t with allowOverdraft := c.allowOverdraft, overdraftLimit := c.overdraftLimit, inflight := c.inflight,
                          atomic := c.atomic, skipQueue := c.skipQueue, queuedParent := c.queuedParent }
  split := c.split

namespace Database

/-- The coalescing executor on a payload as it came. -/
def tryRecordPayloadBatch (db : Database) (p : Payload) (siblings : List (String × String))
    (queuedDebit : String → Option ℤ) : Except String Database :=
  if p.split then .error "split_transaction" else db.tryRecordQueuedTransactionBatch p.transaction siblings queuedDebit

/-- A worker first coalesces the payload as it came, then with the controls of its intent, and executes it alone if
neither batch commits. -/
def processTransaction (db : Database) (p : Payload) (siblings : List (String × String)) (queuedDebit : String → Option ℤ) :
    Except String Database :=
  match db.tryRecordPayloadBatch p siblings queuedDebit with
  | .ok db' => .ok db'
  | .error _ => do
    let t ← db.withIntentControls p.transaction
    match db.tryRecordQueuedTransactionBatch t siblings queuedDebit with
    | .ok db' => .ok db'
    | .error _ => db.recordTransactionSingle t true (queuedDebit t.source)

/-- The database after a step; a failed step leaves it as it was. -/
def after (db : Database) (r : Except String Database) : Database :=
  match r with
  | .ok db' => db'
  | .error _ => db

theorem withIntentControls_queued {db : Database} {t : Transaction} {i : Row} (hid : t.parentTransaction ≠ "")
    (hfound : db.findTransaction t.parentTransaction = some i) (hqueued : i.status = .queued) (hkind : t.parentKind = .unset) :
    db.withIntentControls t = i.toTransaction.map fun intent =>
      let t := { intent.executionControls.apply t with
        parentKind := .unset, overdraftLimit := intent.overdraftLimit, queueAction := intent.queueAction }
      if intent.queueAction = .commit then { t with inflight := false } else t := by
  have hgroup : ¬ (t.parentTransaction = "" ∨ t.parentKind = .group) := by
    rw [hkind]
    exact not_or.mpr ⟨hid,by decide⟩
  unfold withIntentControls getTransaction
  rw [if_neg hgroup,hfound,hkind]
  change (i.toTransaction >>= _) = _
  cases hread : i.toTransaction with
  | error e => rfl
  | ok u =>
    obtain ⟨major,-,-,rfl⟩ := toTransaction_ok hread
    have hintent : (i.asTransaction (Float64.ofRat major) "" false).status = .queued := hqueued
    simp only [bind,Except.bind,hintent,true_or,if_true,Except.map]

/-- Payloads of one queued intent that differ only in their control fields have the same effect, delivered or rejected,
exactly when no batch led by one of them commits before the controls are restored, and the intent can be read
back when one of them is rejected. -/
theorem payload_noninterference {db : Database} {t : Transaction} {i : Row} (hid : t.parentTransaction ≠ "")
    (hfound : db.findTransaction t.parentTransaction = some i) (hqueued : i.status = .queued) (hkind : t.parentKind = .unset)
    (siblings : List (String × String)) (queuedDebit : String → Option ℤ) :
    (∀ c c', db.after (db.processTransaction (t.carrying c) siblings queuedDebit) =
          db.after (db.processTransaction (t.carrying c') siblings queuedDebit) ∧
        db.after (db.handleTransactionRejection (t.carrying c).transaction) =
          db.after (db.handleTransactionRejection (t.carrying c').transaction)) ↔
      (∀ c db', db.tryRecordPayloadBatch (t.carrying c) siblings queuedDebit ≠ .ok db') ∧
        ((∃ u, i.toTransaction = .ok u) ∨ ∀ c db', db.rejectTransaction (t.carrying c).transaction ≠ .ok db') := by
  constructor
  · intro hsame
    refine ⟨fun c db' hbatch => ?_,?_⟩
    · -- a committing variant commits under any queued parent, and the leader's row shows which one it was
      unfold tryRecordPayloadBatch at hbatch
      split_ifs at hbatch with hsplit
      obtain ⟨rows,r,rs,hstored⟩ := tryRecordQueuedTransactionBatch_relink hbatch
      have hdelivered : ∀ q, ∃ db₂, db.after (db.processTransaction (t.carrying { c with queuedParent := q }) siblings queuedDebit) =
          db₂ ∧ db₂.transactions = rows ++ relink q r :: rs := by
        intro q
        obtain ⟨db₂,hdb₂,hrows⟩ := hstored q
        refine ⟨db₂,?_,hrows⟩
        have hraw : db.tryRecordPayloadBatch (t.carrying { c with queuedParent := q }) siblings queuedDebit = .ok db₂ :=
          (if_neg hsplit).trans hdb₂
        rw [processTransaction,hraw]
        rfl
      obtain ⟨db₁,hdb₁,hrows₁⟩ := hdelivered ""
      obtain ⟨db₂,hdb₂,hrows₂⟩ := hdelivered "q"
      exact relinked_ne (by decide) hrows₁ hrows₂ (hdb₁.symm.trans ((hsame _ _).1.trans hdb₂))
    · by_cases hread : ∃ u, i.toTransaction = .ok u
      · exact .inl hread
      refine .inr fun c db' hreject => ?_
      obtain ⟨rows,r,rs,hstored⟩ := rejectTransaction_relink hreject
      have hrejected : ∀ q, ∃ db₂, db.after (db.handleTransactionRejection (t.carrying { c with queuedParent := q }).transaction) =
          db₂ ∧ db₂.transactions = rows ++ relink q r :: rs := by
        intro q
        obtain ⟨db₂,hdb₂,hrows⟩ := hstored q
        refine ⟨db₂,?_,hrows⟩
        unfold handleTransactionRejection
        split
        · rename_i u hu
          rw [withIntentControls_queued (t := (t.carrying { c with queuedParent := q }).transaction) hid hfound hqueued
            hkind] at hu
          obtain ⟨intent,hintent,-⟩ := map_ok hu
          exact absurd ⟨intent,hintent⟩ hread
        · rw [show (t.carrying { c with queuedParent := q }).transaction = (t.carrying c).transaction.relink q from rfl,hdb₂]
          rfl
      obtain ⟨db₁,hdb₁,hrows₁⟩ := hrejected ""
      obtain ⟨db₂,hdb₂,hrows₂⟩ := hrejected "q"
      exact relinked_ne (by decide) hrows₁ hrows₂ (hdb₁.symm.trans ((hsame _ _).2.trans hdb₂))
  · rintro ⟨hraw,hreject⟩ c c'
    have hrestored : db.withIntentControls (t.carrying c).transaction = db.withIntentControls (t.carrying c').transaction := by
      rw [withIntentControls_queued (t := (t.carrying c).transaction) hid hfound hqueued hkind,
        withIntentControls_queued (t := (t.carrying c').transaction) hid hfound hqueued hkind]
      rfl
    constructor
    · have hsecond : ∀ c, db.processTransaction (t.carrying c) siblings queuedDebit = (do
          let t ← db.withIntentControls (t.carrying c).transaction
          match db.tryRecordQueuedTransactionBatch t siblings queuedDebit with
          | .ok db' => .ok db'
          | .error _ => db.recordTransactionSingle t true (queuedDebit t.source)) := by
        intro c
        unfold processTransaction
        split
        · exact absurd ‹_› (hraw c _)
        · rfl
      rw [hsecond c,hsecond c',hrestored]
    · unfold handleTransactionRejection
      rw [hrestored]
      split
      · rfl
      rename_i e he
      have hnone := hreject.resolve_left fun hread => by
        obtain ⟨u,hu⟩ := hread
        rw [withIntentControls_queued (t := (t.carrying c').transaction) hid hfound hqueued hkind,hu] at he
        cases he
      have hkept : ∀ c, db.after (db.rejectTransaction (t.carrying c).transaction) = db := by
        intro c
        cases hc : db.rejectTransaction (t.carrying c).transaction with
        | ok db' => exact absurd hc (hnone c db')
        | error e => rfl
      rw [hkept,hkept]

theorem tryRecordPayloadBatch_alone {db db' : Database} (p : Payload) (queuedDebit : String → Option ℤ) :
    db.tryRecordPayloadBatch p [] queuedDebit ≠ .ok db' := by
  intro h
  unfold tryRecordPayloadBatch at h
  split_ifs at h
  obtain ⟨-,rest,hrest,hne,-⟩ := Engine.tryRecordQueuedTransactionBatch_ok h
  exact hne (Except.ok.inj hrest).symm

end Database

namespace Engine

open Database

/-- A transfer without overdraft and one with overdraft, both queued and from an empty balance. -/
def overdraftPair : List Operation :=
  [.createBalance "bln_a" "USD",.createBalance "bln_b" "USD",
    .post { transferRequest "x" 60 with allowOverdraft := false } none "txn_1" "txn_2" none,
    .post (transferRequest "y" 40) none "txn_3" "txn_4" none]

/-- The message of the transfer without overdraft. -/
def overdraftMessage : Transaction := (run overdraftPair).queue.headD ((transferRequest "x" 60).transaction none)

def messageControls (allowOverdraft : Bool) : PayloadControls :=
  ⟨allowOverdraft,Float64.ofInt 0,false,false,false,"txn_1",false⟩

/-- Delivered alone, the message has one effect whether it claims an overdraft or not. -/
theorem lone_message_noninterfering :
    (run overdraftPair).database.after
        ((run overdraftPair).database.processTransaction (overdraftMessage.carrying (messageControls true)) [] fun _ => none) =
      (run overdraftPair).database.after
        ((run overdraftPair).database.processTransaction (overdraftMessage.carrying (messageControls false)) []
          fun _ => none) := by
  have hfacts : ((run overdraftPair).database.findTransaction overdraftMessage.parentTransaction).map
      (fun i => (i.status,i.toTransaction.isOk)) = some (.queued,true) := by decide +kernel
  obtain ⟨i,hi,hfacts⟩ := Option.map_eq_some_iff.mp hfacts
  obtain ⟨hqueued,hok⟩ := Prod.mk.inj hfacts
  have hread : ∃ u, i.toTransaction = .ok u := by
    cases hi : i.toTransaction with
    | ok u => exact ⟨u,rfl⟩
    | error e =>
      rw [hi] at hok
      cases hok
  exact ((payload_noninterference (by decide +kernel) hi hqueued (by decide +kernel) [] fun _ => none).mpr
    ⟨fun c _ => tryRecordPayloadBatch_alone _ _,.inl hread⟩ (messageControls true) (messageControls false)).1

def overdraftSibling : Transaction :=
  ((run overdraftPair).database.coalescingSibling "txn_3" "txn_5").toOption.getD overdraftMessage

/-- The payload of an intent without overdraft is refused as it was enqueued, and overdraws the balance when it claims
that overdraft is allowed and a sibling is waiting. -/
theorem forged_overdraft_executed :
    let db := (run overdraftPair).database
    overdraftMessage ∈ (run overdraftPair).queue ∧
    (overdraftMessage.carrying (messageControls false)).transaction = overdraftMessage ∧
    (db.findTransaction overdraftMessage.parentTransaction).map (fun i => (i.status,i.controls.allowOverdraft)) =
      some (.queued,false) ∧
    db.after (db.processTransaction (overdraftMessage.carrying (messageControls false)) [("txn_3","txn_5")] fun _ => none) = db ∧
    ((db.after (db.processTransaction (overdraftMessage.carrying (messageControls true)) [("txn_3","txn_5")]
      fun _ => none)).findBalance "bln_a").map (fun c => c.value.balance) = some (-100) := by
  intro db
  have hbatch : ∀ b, db.tryRecordQueuedTransactionBatch (overdraftMessage.carrying (messageControls b)).transaction
      [("txn_3","txn_5")] (fun _ => none) = (do
        let balances ← db.loadBalancesForQueuedBatch (fun _ => none) ["bln_a","bln_b"]
        let st ← prepareQueuedBatch db.referenceExists
          [(overdraftMessage.carrying (messageControls b)).transaction,overdraftSibling] balances
        db.recordTransactionsWithBalanceSet st.finalized st.balances) := by
    intro b
    have hrest : db.coalescingSibling "txn_3" "txn_5" = .ok overdraftSibling := by decide +kernel
    have hleader : canCoalesceQueuedTransaction (overdraftMessage.carrying (messageControls b)).transaction = .ok () := by
      cases b <;> decide +kernel
    have hids : collectQueuedCoalescingBalanceIDs
        [(overdraftMessage.carrying (messageControls b)).transaction,overdraftSibling] = ["bln_a","bln_b"] :=
      collectQueuedCoalescingBalanceIDs_eq (by cases b <;> decide +kernel) (by decide)
    rw [tryRecordQueuedTransactionBatch,hleader,mapM_cons,mapM_nil]
    simp only [hrest,pure_bind,ok_bind,if_neg (cons_ne_nil _ _),persistQueuedTransactionBatch,hids]
  have hsame : (overdraftMessage.carrying (messageControls false)).transaction = overdraftMessage := by decide +kernel
  refine ⟨by decide +kernel,hsame,by decide +kernel,?_,?_⟩
  · have hrefused : db.tryRecordQueuedTransactionBatch overdraftMessage [("txn_3","txn_5")] (fun _ => none) =
        .error "failed to apply transaction to balances: insufficient funds in source balance" := by
      rw [← hsame,hbatch]
      decide +kernel
    have hrestored : db.withIntentControls overdraftMessage = .ok overdraftMessage := by decide +kernel
    have hsingle : db.recordTransactionSingle overdraftMessage true none =
        .error "failed to apply transaction to balances: insufficient funds in source balance" := by decide +kernel
    have hraw : db.tryRecordPayloadBatch (overdraftMessage.carrying (messageControls false)) [("txn_3","txn_5")] (fun _ => none) =
        .error "failed to apply transaction to balances: insufficient funds in source balance" := by
      rw [← hrefused,← hsame]
      rfl
    rw [processTransaction,hraw,hsame,hrestored]
    simp only [bind,Except.bind,hrefused,hsingle]
    rfl
  · have hraw : db.tryRecordPayloadBatch (overdraftMessage.carrying (messageControls true)) [("txn_3","txn_5")] (fun _ => none) =
        _ := hbatch true
    rw [processTransaction,hraw]
    decide +kernel

end Engine
end LedgerForge
