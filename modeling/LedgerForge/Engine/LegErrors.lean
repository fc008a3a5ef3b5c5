import LedgerForge.Engine.InflightActions
import LedgerForge.Engine.Expiry

/-! # Errors of a commit or void by their text

The errors of committing or voiding a hold, followed through the stages of the posting: every one that is classified
as terminal says that the hold was voided, that nothing is left of it, that more was asked for than is left, or
that the reference is taken.
-/

namespace LedgerForge

open VersionedStore Database List Legs

theorem infix_of_separator {α : Type} {p a b : List α} {c : α} (hc : c ∉ p) (h : p <:+: a ++ c :: b) :
    p <:+: a ∨ p <:+: b := by
  obtain ⟨s,t,hst⟩ := h
  rw [append_assoc] at hst
  rcases append_eq_append_iff.mp hst with ⟨u,rfl,hu⟩ | ⟨u,rfl,hu⟩
  · rcases append_eq_append_iff.mp hu with ⟨v,rfl,-⟩ | ⟨v,rfl,hv⟩
    · exact .inl ⟨s,v,by rw [append_assoc]⟩
    cases v with
    | nil => exact .inl ⟨s,[],by simp⟩
    | cons d v =>
      obtain ⟨rfl,-⟩ := List.cons.inj hv
      exact absurd (mem_append_right u mem_cons_self) hc
  · cases u with
    | nil =>
      cases p with
      | nil => exact .inl nil_infix
      | cons d p =>
        obtain ⟨rfl,-⟩ := List.cons.inj hu
        exact absurd mem_cons_self hc
    | cons d u => exact .inr ⟨u,t,by rw [append_assoc]; exact (List.cons.inj hu).2.symm⟩

def terminalPieces : List (List Char) :=
  [['r','e','f','e','r','e','n','c','e'],['v','o','i','d','e','d'],['c','o','m','m','i','t','t','e','d'],
    ['n','o','t',' ','i','n'],['m','o','r','e',' ','t','h','a','n']]

def Silent (text : List Char) : Prop := ∀ p ∈ terminalPieces, ¬ p <:+: text.map Char.toLower
deriving Decidable

variable {message : String} {l : Legs} {db : Database}

theorem mentions_of_silent {text : String} (h : Silent message.toList) {p : List Char} (hp : p ∈ terminalPieces)
    (ht : p <:+: text.toList) : mentions message text = false := by
  apply decide_eq_false
  intro hinfix
  exact h p hp (ht.trans hinfix)

theorem not_terminal_of_silent (h : Silent message.toList) : isTerminalInflightError message = false := by
  have hreference : mentions message "reference" = false := mentions_of_silent h mem_cons_self (by decide)
  have hvoided : mentions message "has already been voided" = false :=
    mentions_of_silent h (p := ['v','o','i','d','e','d']) (by decide) (by decide)
  have hcommitted : mentions message "transaction already committed" = false :=
    mentions_of_silent h (p := ['c','o','m','m','i','t','t','e','d']) (by decide) (by decide)
  have hinflight : mentions message "not in inflight status" = false :=
    mentions_of_silent h (p := ['n','o','t',' ','i','n']) (by decide) (by decide +kernel)
  have hamount : mentions message "cannot commit more than" = false :=
    mentions_of_silent h (p := ['m','o','r','e',' ','t','h','a','n']) (by decide) (by decide +kernel)
  simp only [isTerminalInflightError,isDuplicateReferenceError,classifyInflightError,hreference,hvoided,hcommitted,hinflight,
    hamount,Bool.false_and,Bool.and_false,Bool.or_self,Bool.false_or,Bool.false_eq_true,if_false]
  split_ifs <;> rfl

theorem not_terminal_of_literal {text : List Char} (hm : message.toList = text) (h : Silent text) :
    isTerminalInflightError message = false := not_terminal_of_silent (hm ▸ h)

theorem not_terminal_of_append {before after : String} {text rest : List Char} (hb : before.toList = text)
    (ha : after.toList = rest) (h : Silent (text ++ rest)) : isTerminalInflightError (before ++ after) = false :=
  not_terminal_of_literal (String.toList_append.trans (hb ▸ ha ▸ rfl)) h

def isBalanceChar (c : Char) : Bool := Engine.isUUIDChar c || c ∈ ['b','l','n','_']

theorem toLower_of_isBalanceChar {c : Char} (h : isBalanceChar c = true) : c.toLower = c := by
  rw [isBalanceChar,Engine.isUUIDChar,Bool.or_eq_true,Bool.or_eq_true,decide_eq_true_eq,decide_eq_true_eq] at h
  rcases h with (h | h) | h
  · refine dif_neg ?_
    rintro ⟨hlow,-⟩
    rw [Char.isDigit,Bool.and_eq_true,decide_eq_true_eq,decide_eq_true_eq] at h
    exact absurd (UInt32.le_trans hlow h.2) (by decide)
  · simp only [mem_cons,not_mem_nil,or_false] at h
    rcases h with rfl | rfl | rfl | rfl | rfl | rfl | rfl <;> decide
  · simp only [mem_cons,not_mem_nil,or_false] at h
    rcases h with rfl | rfl | rfl | rfl <;> decide

theorem isBalanceChar_of_balanceID {id : String} (h : isBalanceID id = true) {c : Char} (hc : c ∈ id.toList) :
    isBalanceChar c = true := by
  have hhead : "bln_".toList.all isBalanceChar = true := by decide
  rw [isBalanceID,Bool.and_eq_true,all_eq_true,decide_eq_true_eq] at h
  obtain ⟨⟨tail,htail⟩,hchars⟩ := h
  rw [← htail] at hchars hc
  rcases mem_append.mp hc with hc | hc
  · exact all_eq_true.mp hhead c hc
  · rw [isBalanceChar,hchars c hc,Bool.true_or]

theorem toList_conflictMessage (id : String) : (conflictMessage id).toList =
    "Optimistic locking failure: balance with ID ".toList ++
      '\'' :: (id.toList ++ '\'' :: " may have been updated or deleted by another transaction".toList) := by
  have hbefore : "Optimistic locking failure: balance with ID '".toList =
      "Optimistic locking failure: balance with ID ".toList ++ ['\''] := by
    rw [String.toList_ofList,String.toList_ofList]
    rfl
  have hafter : "' may have been updated or deleted by another transaction".toList =
      '\'' :: " may have been updated or deleted by another transaction".toList := by
    rw [String.toList_ofList,String.toList_ofList]
  unfold conflictMessage
  rw [String.toList_append,String.toList_append,append_assoc,hbefore,hafter,← append_cons]

theorem conflictMessage_not_terminal {id : String} (h : ∀ c ∈ id.toList, isBalanceChar c = true) :
    isTerminalInflightError (conflictMessage id) = false := by
  have hquote : ∀ p ∈ terminalPieces, '\'' ∉ p := by decide
  have hletter : ∀ p ∈ terminalPieces, p.all isBalanceChar = false := by decide
  have hbefore : Silent "Optimistic locking failure: balance with ID ".toList := by
    decide +kernel
  have hafter : Silent " may have been updated or deleted by another transaction".toList := by
    rw [String.toList_ofList]
    decide
  have hlower : id.toList.map Char.toLower = id.toList :=
    (map_congr_left fun c hc => toLower_of_isBalanceChar (h c hc)).trans (map_id _)
  apply not_terminal_of_silent
  intro p hp hinfix
  rw [toList_conflictMessage,map_append,map_cons,map_append,hlower] at hinfix
  rcases infix_of_separator (hquote p hp) hinfix with hin | hin
  · exact hbefore p hp hin
  rcases infix_of_separator (hquote p hp) hin with hin | hin
  · obtain ⟨c,hc,hother⟩ := all_eq_false.mp (hletter p hp)
    exact hother (h c (hin.subset hc))
  · exact hafter p hp hin

def settlingErrors : List String :=
  ["inflight transition amount must be positive","insufficient inflight reservation",
    "commit inflight debit failed: inflight amount must be positive",
    "commit inflight credit failed: inflight amount must be positive"]

variable {m : String}

theorem reservationError_mem (h : l.reservationError = some m) : m ∈ settlingErrors := by
  unfold reservationError at h
  split at h
  · cases h
    decide
  · split_ifs at h <;> cases h <;> decide

theorem commitLegs_error {l' : Legs} (hr : l.reservationError = none) (h : l.commitLegs = (some m,l')) :
    m ∈ settlingErrors := by
  obtain ⟨a,hamount,hpos,hdebit,hcredit⟩ := reservationError_eq_none.mp hr
  cases hvalid : l.transaction.validateMonetaryFields with
  | error e =>
    have hsource : l.source.commitInflightDebit l.transaction =
        (.error "inflight amount must be positive",l.transaction) := by
      rw [Balance.commitInflightDebit,Transaction.applyPrecision_of_invalid hvalid]
      rfl
    rw [commitLegs,hsource] at h
    cases h
    decide
  | ok =>
    rw [commitLegs_of_valid hvalid hamount hpos hdebit hcredit] at h
    split_ifs at h <;> cases h
    decide

theorem applyTransactionToBalances_error {l' : Legs}
    (hs : l.transaction.status = .commit ∨ l.transaction.status = .void)
    (h : l.applyTransactionToBalances = (some m,l')) : m ∈ settlingErrors := by
  unfold applyTransactionToBalances at h
  rcases hs with hs | hs <;> rw [hs] at h <;> simp only at h
  · cases hr : l.reservationError with
    | some e =>
      rw [hr] at h
      cases h
      exact reservationError_mem hr
    | none =>
      rw [hr] at h
      exact commitLegs_error hr h
  · cases hr : l.reservationError with
    | some e =>
      rw [hr] at h
      cases h
      exact reservationError_mem hr
    | none =>
      obtain ⟨a,hamount,hpos,hdebit,hcredit⟩ := reservationError_eq_none.mp hr
      rw [hr] at h
      simp only [voidLegs_of_covered hamount hpos hdebit hcredit] at h
      cases h

theorem prepareSingle_error {t : Transaction} {source destination : Balance}
    (hs : t.status = .commit ∨ t.status = .void) (h : prepareSingle t source destination = .error m) :
    isTerminalInflightError m = false := by
  have hall : ∀ e ∈ settlingErrors,
      isTerminalInflightError ("failed to apply transaction to balances: " ++ e) = false := by
    intro e he
    simp only [settlingErrors,mem_cons,not_mem_nil,or_false] at he
    rcases he with rfl | rfl | rfl | rfl <;>
      exact not_terminal_of_append String.toList_ofList String.toList_ofList (by decide +kernel)
  unfold prepareSingle at h
  simp only at h
  split at h
  · cases h
  split at h
  · rename_i e l happly
    cases h
    exact hall e (applyTransactionToBalances_error hs happly)
  · split at h <;> cases h

theorem toRow_error {t : Transaction} (h : t.toRow = .error m) : isTerminalInflightError m = false := by
  unfold Transaction.toRow at h
  split at h
  · cases h
    exact not_terminal_of_literal String.toList_ofList (by decide)
  split at h
  · cases h
    exact not_terminal_of_literal String.toList_ofList (by decide)
  split at h
  · cases h
    exact not_terminal_of_literal String.toList_ofList (by decide)
  · split at h <;> cases h
    exact not_terminal_of_literal String.toList_ofList (by decide)

def Exceeds (rows : List Row) (r : Row) : Prop :=
  ∃ h ∈ rows, h.transactionID = r.parentTransaction ∧ h.status = .inflight ∧ withinRemaining rows r h = false

variable {r : Row}

theorem withoutParent_error {claims : List RefundClaim} (h : withoutParent claims r = .error m) :
    isTerminalInflightError m = false := by
  unfold withoutParent at h
  split at h <;> cases h
  exact not_terminal_of_literal String.toList_ofList (by decide +kernel)

theorem claimTransactionLifecycle_error {rows : List Row} {claims : List RefundClaim}
    (h : claimTransactionLifecycle rows claims r = .error m) : isTerminalInflightError m = false ∨ Exceeds rows r := by
  unfold claimTransactionLifecycle at h
  split at h
  · exact .inl (withoutParent_error h)
  split at h
  · exact .inl (withoutParent_error h)
  rename_i parent hparent
  split_ifs at h with hrefund hstatus hlegs hcommit hcompletes hprocessed hsettles
  · cases h
    exact .inl (not_terminal_of_literal String.toList_ofList (by decide))
  · cases h
    exact .inl (not_terminal_of_literal String.toList_ofList (by decide))
  · unfold claimRefund at h
    split_ifs at h <;> cases h
    all_goals exact .inl (not_terminal_of_literal String.toList_ofList (by decide +kernel))
  · cases h
    exact .inl (not_terminal_of_literal String.toList_ofList (by decide))
  · cases h
    exact .inl (not_terminal_of_literal String.toList_ofList (by decide))
  · unfold claimSettlement at h
    split_ifs at h with hqueued hterms hwithin <;> cases h
    · exact .inl (not_terminal_of_literal String.toList_ofList (by decide))
    · exact .inl (not_terminal_of_literal String.toList_ofList (by decide))
    · exact .inr ⟨parent,Keyed.find_mem hparent,Keyed.find_key hparent,hsettles.1,hwithin⟩
  · exact .inl (withoutParent_error h)

theorem insertRow_error (href : db.referenceExists r.reference = false)
    (h : db.insertRow r = .error m) : isTerminalInflightError m = false ∨ Exceeds db.transactions r := by
  unfold insertRow at h
  split at h
  · rename_i e he
    cases h
    exact claimTransactionLifecycle_error he
  · rw [referenceExists] at href
    simp only [href,Bool.false_eq_true,if_false] at h
    split_ifs at h <;> cases h <;> exact .inl (not_terminal_of_literal String.toList_ofList (by decide +kernel))

theorem updateBalance_error {b : Balance} (hb : isBalanceID b.balanceID = true)
    (h : db.updateBalance b = .error m) : isTerminalInflightError m = false := by
  rw [updateBalance,updateBalanceChunk] at h
  split at h
  · cases h
  cases h
  cases hfind : [b].find? fun b => !db.balances.any b.cell.expects with
  | none =>
    exact @conflictMessage_not_terminal "" fun c hc => absurd hc not_mem_nil
  | some c =>
    obtain rfl := mem_singleton.mp (List.mem_of_find?_eq_some hfind)
    exact conflictMessage_not_terminal fun c hc => isBalanceChar_of_balanceID hb hc

def Database.Generated (db : Database) : Prop := ∀ c ∈ db.balances, isBalanceID c.key = true

theorem updateBalance_transactions {db' : Database} {b : Balance} (h : db.updateBalance b = .ok db') :
    db'.transactions = db.transactions := by
  rw [updateBalance,updateBalanceChunk] at h
  split at h <;> cases h
  rfl

/-- A commit or void that is refused below the checks of its own: the error is not terminal, or the trigger compared it
with what is left of its hold. -/
theorem recordTransactionSingle_error {u : Transaction} {queuedDebit : Option ℤ}
    (hb : db.Generated) (href : db.referenceExists u.reference = false) (hs : u.status = .commit ∨ u.status = .void)
    (h : db.recordTransactionSingle u false queuedDebit = .error m) : isTerminalInflightError m = false ∨
      ∃ r, r.parentTransaction = u.parentTransaction ∧ (∀ x, u.preciseAmount = some x → r.preciseAmount = some x) ∧
        Exceeds db.transactions r := by
  unfold recordTransactionSingle at h
  rw [href] at h
  simp only [Bool.false_eq_true,if_false] at h
  split at h
  · rename_i source destination hsource hdestination
    rcases bind_error h with h | ⟨prepared,hprepared,h⟩
    · exact .inl (prepareSingle_error hs h)
    cases prepared with
    | zero t => cases h
    | persist work =>
      obtain ⟨a,hex⟩ := prepareSingle_persist hprepared
      have hgenerated : ∀ {id : String} {c : StoredBalance} {b : Balance}, db.findBalance id = some c →
          b.balanceID = c.key → isBalanceID b.balanceID = true := fun hc hkey => hkey ▸ hb _ (Keyed.find_mem hc)
      rcases bind_error h with h | ⟨db₁,h₁,h⟩
      · exact .inl (updateBalance_error (hgenerated hsource hex.source.balanceID) h)
      rcases bind_error h with h | ⟨db₂,h₂,h⟩
      · exact .inl (updateBalance_error (hgenerated hdestination hex.destination.balanceID) h)
      have hrows : db₂.transactions = db.transactions :=
        (updateBalance_transactions h₂).trans (updateBalance_transactions h₁)
      rcases bind_error h with h | ⟨r,hr,h⟩
      · exact .inl (toRow_error h)
      obtain ⟨b,p,hamount,-,-,-,rfl⟩ := (toRow_ok hr).columns
      cases hamount.symm.trans hex.amount
      rw [hex.transaction] at h
      rw [← hrows]
      rcases insertRow_error (by rw [referenceExists,hrows]; exact href) h with h | h
      · exact .inl h
      · exact .inr ⟨_,rfl,fun x hx => congrArg some (hex.kept x hx).symm,h⟩
  · cases h
    exact .inl (not_terminal_of_literal String.toList_ofList (by decide))

end LedgerForge
