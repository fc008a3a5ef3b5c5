import LedgerForge.Engine.Recording
import LedgerForge.Journal.Rows

/-! # What recording a transaction stores

The stored form of an executed transaction in terms of the transaction alone, and the possible outcomes
of executing one transaction: posted, rejected or dropped.
-/

namespace LedgerForge

open VersionedStore Database Transaction Option Legs

namespace Transaction

/-- The monetary fields as they are persisted: a void keeps them, everything else converts its amount. -/
def persisted (t : Transaction) (a : ℤ) : Transaction := if t.status = .void then t else t.materialise a

def postedRow (t : Transaction) (a p : ℤ) : Row where
  transactionID := t.transactionID
  parentTransaction := t.parentTransaction
  source := t.source
  destination := t.destination
  reference := t.reference
  currency := t.currency
  amount := (t.persisted a).amountString
  preciseAmount := some a
  precision := p
  rate := t.rate
  overdraftLimit := t.overdraftLimit
  status := if t.inflight then .inflight else applicableStatus t.status
  queueAction := t.queueAction
  controls := t.executionControls

theorem applicableStatus_ne_inflight (s : Status) : applicableStatus s ≠ .inflight := by
  cases s <;> exact fun h => by cases h

theorem executed_columns {t : Transaction} {source destination : Balance} (hs : source.balanceID = t.source)
    (hd : destination.balanceID = t.destination) (a p : ℤ) :
    (t.executed source destination a).columns a p = t.postedRow a p := by
  cases hi : t.inflight <;>
    simp [executed,columns,postedRow,persisted,clearTerminalInflightMetadata,executionControls,hs,hd,hi,
      applicableStatus_ne_inflight]

theorem applyPrecision_frame (t : Transaction) : ∃ amount text minor precision, t.applyPrecision.2 =
    { t with amount := amount, amountString := text, preciseAmount := minor, precision := precision } := by
  cases h : t.validateMonetaryFields with
  | error e =>
    rw [applyPrecision_of_invalid h]
    exact ⟨t.amount,t.amountString,t.preciseAmount,t.precision,rfl⟩
  | ok =>
    rw [applyPrecision_of_valid h]
    exact ⟨_,_,_,_,rfl⟩

end Transaction

/-- A row posted for a transaction with the amount and precision that were stored. -/
structure PostedAs (t : Transaction) (r : Row) (a p : ℤ) : Prop where
  row : r = t.postedRow a p
  positive : 0 < a
  kept : ∀ x, t.preciseAmount = some x → x = a
  precision : (t.persisted a).precision.toInt? = some p
  range : -2^63 ≤ p ∧ p < 2^63
  text : (t.persisted a).amountString ≠ ""
  valid : t.status ≠ .void → t.validateMonetaryFields = .ok ()

def RejectedAs (t : Transaction) (r : Row) : Prop := StoredAs { t with status := .rejected }.applyPrecision.2 r

variable {t : Transaction} {source destination : Balance} {a : ℤ} {queuedDebit : Option ℤ}

theorem postedAs_of_stored {r : Row}
    (hs : source.balanceID = t.source) (hd : destination.balanceID = t.destination) (hpos : 0 < a)
    (hkept : ∀ x, t.preciseAmount = some x → x = a) (hvalid : t.status ≠ .void → t.validateMonetaryFields = .ok ())
    (hamount : (t.executed source destination a).preciseAmount = some a)
    (hr : StoredAs (t.executed source destination a) r) : ∃ p, PostedAs t r a p := by
  obtain ⟨a',p,ha',hp,hlow,hhigh,rfl⟩ := hr.columns
  obtain rfl : a = a' := some.inj (hamount.symm.trans ha')
  exact ⟨p,executed_columns hs hd a p,hpos,hkept,hp,⟨hlow,hhigh⟩,hr.amountString,hvalid⟩

/-- The possible outcomes of executing one transaction. -/
inductive SingleOutcome (db : Database) (t : Transaction) (viaQueue : Bool) : Database → Prop
  | dropped (unqueued : viaQueue = false) (zero : t.isZeroPreciseAmount = true) : SingleOutcome db t viaQueue db
  | rejected {db' : Database} {r : Row} (queued : viaQueue = true) (zero : t.isZeroPreciseAmount = true)
      (stored : RejectedAs t r)
      (inserted : Inserted db db' r) : SingleOutcome db t viaQueue db'
  | posted {db' : Database} {r : Row} {a p : ℤ} (stored : PostedAs t r a p) (distinct : t.source ≠ t.destination)
      (posted : Posted db db' [r]) : SingleOutcome db t viaQueue db'

variable {db : Database}

theorem loadBalance_id {id : String} {c : StoredBalance} (h : db.findBalance id = some c)
    (queuedDebit : Option ℤ) : (loadBalance c queuedDebit).balanceID = id := by
  have hkey : c.key = id := Keyed.find_key h
  exact hkey

theorem fresh_found {id : String} {c : StoredBalance} (h : db.findBalance id = some c)
    (queuedDebit : Option ℤ) : Fresh db.balances (loadBalance c queuedDebit).cell := by
  intro c' hc'
  have hkey : c.key = id := Keyed.find_key h
  cases (show lookup db.balances c.key = some c from hkey ▸ h).symm.trans hc'
  exact ⟨le_rfl,fun _ => rfl⟩

theorem prepareSingle_zero {t' : Transaction} (hs : source.balanceID = t.source)
    (hd : destination.balanceID = t.destination) (h : prepareSingle t source destination = .ok (.zero t')) :
    t' = t ∧ t.isZeroPreciseAmount = true := by
  have hsame : { t with source := source.balanceID, destination := destination.balanceID } = t := by
    rw [hs,hd]
  unfold prepareSingle at h
  simp only [hsame] at h
  split at h
  · rename_i hzero
    cases h
    exact ⟨rfl,hzero⟩
  split at h
  · cases h
  rename_i l hl
  obtain ⟨a,happlied⟩ := applied_of_none hl
  have hamount : (l.transaction.updateTransactionDetails l.source l.destination).preciseAmount = some a :=
    happlied.amount
  rw [buildTransactionExecutionWork,if_neg (by
    simp only [hamount,some.injEq]
    exact happlied.positive.ne')] at h
  cases h

variable {db' : Database}

theorem prepared_posted {work : Legs}
    (hn : db.UniqueBalances) (hp : t.Postable) (hs : source.balanceID = t.source) (hd : destination.balanceID = t.destination)
    (hfs : Fresh db.balances source.cell) (hfd : Fresh db.balances destination.cell)
    (hprepared : prepareSingle t source destination = .ok (.persist work))
    (h : db.recordTransactionWithBalances work.transaction work.source work.destination = .ok db') :
    ∃ r a p, Executed t source destination work a ∧ PostedAs t r a p ∧ t.source ≠ t.destination ∧ Posted db db' [r] := by
  obtain ⟨a,hex⟩ := prepareSingle_persist hprepared
  obtain ⟨hne,-,r,hr,hposted⟩ := recordTransactionWithBalances_posted hn hfs hfd hex hp h
  have hamount := hex.amount
  rw [hex.transaction] at hamount hr
  obtain ⟨p,hstored⟩ := postedAs_of_stored hs hd hex.positive hex.kept hex.valid hamount hr
  refine ⟨r,a,p,hex,hstored,?_,hposted⟩
  rw [← hs,← hd]
  exact hne

theorem recordTransactionSingle_ok {viaQueue : Bool}
    (hn : db.UniqueBalances) (hp : t.Postable) (h : db.recordTransactionSingle t viaQueue queuedDebit = .ok db') :
    SingleOutcome db t viaQueue db' := by
  obtain ⟨-,h⟩ := ok_of_guard h
  split at h
  · rename_i source destination hs hd
    obtain ⟨prepared,hprepared,hfinish⟩ := bind_ok h
    have hsid := loadBalance_id hs queuedDebit
    have hdid := loadBalance_id hd none
    cases prepared with
    | zero t' =>
      obtain ⟨rfl,hzero⟩ := prepareSingle_zero hsid hdid hprepared
      cases viaQueue with
      | true =>
        obtain ⟨r,hr,hinserted⟩ := recordTransaction_ok hfinish
        exact .rejected rfl hzero hr hinserted
      | false =>
        cases hfinish
        exact .dropped rfl hzero
    | persist work =>
      obtain ⟨r,a,p,-,hstored,hne,hposted⟩ := prepared_posted hn hp hsid hdid (fresh_found hs queuedDebit)
        (fresh_found hd none) hprepared hfinish
      exact .posted hstored hne hposted
  · cases h

/-- An application that went through is prepared for persistence. -/
theorem prepareSingle_of_applied {u : Transaction} {l : Legs}
    (hs : source.balanceID = u.source) (hd : destination.balanceID = u.destination) (hzero : u.isZeroPreciseAmount = false)
    (happly : (mk u source destination).applyTransactionToBalances = (none,l))
    (happlied : Applied ⟨u,source,destination⟩ l a) :
    prepareSingle u source destination = .ok (.persist ⟨u.executed source destination a,l.source,l.destination⟩) ∧
      Executed u source destination ⟨u.executed source destination a,l.source,l.destination⟩ a := by
  have hsame : { u with source := source.balanceID, destination := destination.balanceID } = u := by
    rw [hs,hd]
  have hwork : l.transaction.buildTransactionExecutionWork l.source l.destination =
      ((l.transaction.updateTransactionDetails l.source l.destination).clearTerminalInflightMetadata,false) := by
    have hamount : (l.transaction.updateTransactionDetails l.source l.destination).preciseAmount = some a := happlied.amount
    rw [buildTransactionExecutionWork]
    simp only [hamount,some.injEq,happlied.positive.ne',if_false]
  have hprepare : prepareSingle u source destination = .ok (.persist
      ⟨(l.transaction.updateTransactionDetails l.source l.destination).clearTerminalInflightMetadata,l.source,
        l.destination⟩) := by
    unfold prepareSingle
    simp only [hsame,hzero,Bool.false_eq_true,if_false,happly,hwork]
  obtain ⟨b,hex⟩ := prepareSingle_persist hprepare
  obtain rfl : b = a := some.inj (hex.amount.symm.trans happlied.amount)
  have hexecuted := hex.transaction
  simp only at hexecuted
  rw [hexecuted] at hprepare hex
  exact ⟨hprepare,hex⟩

/-- A row that recording added, other than a rejection, moved the amount its source had the funds for. -/
theorem recordTransactionSingle_posts {viaQueue : Bool} {r : Row}
    (hn : db.UniqueBalances) (hp : t.Postable) (h : db.recordTransactionSingle t viaQueue queuedDebit = .ok db')
    (hr : r ∈ db'.transactions) (hnew : r ∉ db.transactions) (hstatus : r.status ≠ .rejected) :
    ∃ a p c, PostedAs t r a p ∧ t.source ≠ t.destination ∧ Posted db db' [r] ∧ db.findBalance t.source = some c ∧
      (t.status ≠ .void → t.status ≠ .commit →
        canProcessTransaction (t.materialise a) (loadBalance c queuedDebit) = .ok ()) := by
  have hlast : ∀ {x : Row}, db'.transactions = db.transactions ++ [x] → r = x := by
    intro x hx
    rw [hx] at hr
    rcases List.mem_append.mp hr with hrold | hrnew
    · exact absurd hrold hnew
    · exact List.mem_singleton.mp hrnew
  obtain ⟨-,h⟩ := ok_of_guard h
  split at h
  · rename_i source destination hs hd
    obtain ⟨prepared,hprepared,hfinish⟩ := bind_ok h
    have hsid := loadBalance_id hs queuedDebit
    have hdid := loadBalance_id hd none
    cases prepared with
    | zero t' =>
      cases viaQueue with
      | true =>
        obtain ⟨x,hx,hinserted⟩ := recordTransaction_ok hfinish
        obtain ⟨amount,text,minor,precision,hframe⟩ := ({ t' with status := .rejected }).applyPrecision_frame
        obtain ⟨a,p,-,-,-,-,hrow⟩ := hx.columns
        rw [hlast hinserted.transactions,hrow,hframe] at hstatus
        exact absurd rfl hstatus
      | false =>
        cases hfinish
        exact absurd hr hnew
    | persist work =>
      obtain ⟨x,a,p,hex,hstored,hne,hposted⟩ := prepared_posted hn hp hsid hdid (fresh_found hs queuedDebit)
        (fresh_found hd none) hprepared hfinish
      obtain rfl := hlast hposted.transactions
      exact ⟨a,p,source,hstored,hne,hposted,hs,hex.funded⟩
  · cases h

/-- A transaction that can be applied and whose row passes the insert checks is recorded. -/
theorem recordTransactionSingle_exists {u : Transaction} {p : ℤ} {cs cd : StoredBalance}
    {claims : List RefundClaim} {l : Legs} (viaQueue : Bool) (hn : db.UniqueBalances)
    (href : db.referenceExists u.reference = false) (hs : db.findBalance u.source = some cs)
    (hd : db.findBalance u.destination = some cd) (hne : u.source ≠ u.destination) (hzero : u.isZeroPreciseAmount = false)
    (happly : (mk u (loadBalance cs queuedDebit) (loadBalance cd none)).applyTransactionToBalances = (none,l))
    (happlied : Applied ⟨u,loadBalance cs queuedDebit,loadBalance cd none⟩ l a)
    (htext : (u.persisted a).amountString ≠ "") (hp : (u.persisted a).precision.toInt? = some p) (hlow : -2^63 ≤ p)
    (hhigh : p < 2^63) (hl : claimTransactionLifecycle db.transactions db.refundClaims (u.postedRow a p) = .ok claims)
    (hid : ∀ x ∈ db.transactions, x.transactionID ≠ u.transactionID) :
    ∃ db', db.recordTransactionSingle u viaQueue queuedDebit = .ok db' ∧
      db'.transactions = db.transactions ++ [u.postedRow a p] ∧ db'.refundClaims = claims ∧
      Written db.balances db'.balances [l.source.cell,l.destination.cell] := by
  have hsid := loadBalance_id hs queuedDebit
  have hdid := loadBalance_id hd none
  obtain ⟨hprepare,hex⟩ := prepareSingle_of_applied hsid hdid hzero happly happlied
  have hrow : (u.executed (loadBalance cs queuedDebit) (loadBalance cd none) a).toRow = .ok (u.postedRow a p) := by
    have hamount : (u.executed (loadBalance cs queuedDebit) (loadBalance cd none) a).preciseAmount = some a := hex.amount
    have htext' : (u.executed (loadBalance cs queuedDebit) (loadBalance cd none) a).amountString ≠ "" := htext
    have hp' : (u.executed (loadBalance cs queuedDebit) (loadBalance cd none) a).precision.toInt? = some p := hp
    rw [toRow,if_neg htext',hamount,hp']
    simp only
    rw [if_neg (by omega),executed_columns hsid hdid]
  have hfresh : ∀ x ∈ db.transactions, x.reference ≠ u.reference := by
    intro x hx he
    rw [referenceExists,List.any_eq_false] at href
    exact href x hx (decide_eq_true he)
  have hsource : l.source.balanceID = u.source := happlied.source.balanceID.trans hsid
  have hdestination : l.destination.balanceID = u.destination := happlied.destination.balanceID.trans hdid
  obtain ⟨db',hdb,heffect⟩ := recordTransactionWithBalances_exists hn hrow (hsource.symm ▸ hs) happlied.source.version.symm
    (hdestination.symm ▸ hd) happlied.destination.version.symm (by rw [hsource,hdestination]; exact hne) hl hid hfresh
    (isSome_of_eq_some hs) (isSome_of_eq_some hd)
  refine ⟨db',?_,heffect⟩
  rw [recordTransactionSingle,href,hs,hd]
  simp only [Bool.false_eq_true,if_false,hprepare]
  exact hdb

end LedgerForge
