import LedgerForge.Policy.Budgets

/-! # Approval precedes settlement

A row belongs to a leg through its reference, or because it settles a hold posted under that reference. Postings are
checked by reference, settlements by the transaction identifiers above them.
-/

namespace LedgerForge.Policy

open PolicyDatabase Keyed PolicyBinding Option Database Walks

variable {env : Environment} {db db' : PolicyDatabase}

def PolicyBinding.Holds (b : PolicyBinding) (h : Row) : Prop := h.status = .inflight ∧ b.names h.reference = true

def PolicyDatabase.Below (db : PolicyDatabase) (h new : Row) : Prop :=
  new.parentTransaction ≠ "" ∧ (db.ledger.findTransaction new.parentTransaction = some h ∨
    ∃ q, db.ledger.findTransaction new.parentTransaction = some q ∧ q.status = .queued ∧ q.queueAction = .commit ∧
      q.parentTransaction ≠ "" ∧ db.ledger.findTransaction q.parentTransaction = some h)

def PolicyDatabase.Bound (db : PolicyDatabase) (b : PolicyBinding) (new : Row) : Prop :=
  b.names new.reference = true ∨ ∃ h, b.Holds h ∧ db.Below h new

def Settling (r : Row) : Prop := Row.ends r = false ∧ (r.status = .applied ∨ r.queueAction = .commit)

/-- References and identifiers tell the same legs apart. -/
structure Identified (db : PolicyDatabase) : Prop where
  references : ∀ b ∈ db.bindings, ∀ x ∈ db.bindings, x.reference ≠ b.reference ++ "_q"
  ids : ∀ b ∈ db.bindings, ∀ r ∈ db.ledger.transactions, r.transactionID = b.transactionID →
    b.names r.reference = true ∧ r.queueAction ≠ .commit
  holds : ∀ b ∈ db.bindings, ∀ h ∈ db.ledger.transactions, h.status = .inflight → b.names h.reference = true →
    h.transactionID = b.transactionID ∨ b.transactionID ≠ "" ∧ h.parentTransaction = b.transactionID

variable {b : PolicyBinding} {new : Row}

theorem Identified.unique (h : Identified db) (hrefs : (db.bindings.map reference).Nodup) {x : PolicyBinding}
    (hb : b ∈ db.bindings) (hx : x ∈ db.bindings) {reference : String} (hbn : b.names reference = true)
    (hxn : x.names reference = true) : x = b := by
  apply List.inj_on_of_nodup_map hrefs hx hb
  simp only [names,Bool.or_eq_true,decide_eq_true_eq] at hbn hxn
  rcases hbn with rfl | rfl
  · rcases hxn with he | he
    · exact he.symm
    · exact absurd he (h.references x hx b hb)
  rcases hxn with he | he
  · exact absurd he.symm (h.references b hb x hx)
  have hlists := congrArg String.toList he
  rw [String.toList_append,String.toList_append] at hlists
  exact String.toList_injective (List.append_cancel_right hlists).symm

section

variable (hdb : Accounted db) (hid : Identified db)

include hdb hid

/-- From a hold the search finds its leg within one step. -/
theorem search_hold {b : PolicyBinding} {h : Row} {id : String} (hb : b ∈ db.bindings)
    (hfound : db.ledger.findTransaction id = some h) (hholds : b.Holds h) (n : ℕ) :
    (walk db.parentRow (n+1) id).findSome? (find transactionID db.bindings) = some b := by
  have hkey : h.transactionID = id := find_key hfound
  have hmem : h ∈ db.ledger.transactions := find_mem hfound
  have hself : find transactionID db.bindings b.transactionID = some b := find_of_mem hdb.ids hb
  rw [walk,List.findSome?_cons]
  cases hown : find transactionID db.bindings id with
  | some x =>
    -- the hold carries a bound identifier, which is then the one of its own leg
    have hx := find_mem hown
    have hnames := (hid.ids x hx h hmem (hkey.trans (find_key hown).symm)).1
    rw [hid.unique hdb.references hb hx hholds.2 hnames]
  | none =>
    have hother : h.transactionID ≠ b.transactionID := fun he =>
      absurd (he.symm.trans hkey) (find_eq_none.mp hown b hb)
    obtain ⟨hne,hparent⟩ := (hid.holds b hb h hmem hholds.1 hholds.2).resolve_left hother
    have hnext : db.parentRow id = some b.transactionID := by
      unfold parentRow
      rw [hfound,bind_some,hparent,if_neg]
      rintro (he | he)
      · exact hne he
      · exact hother he.symm
    rw [hnext,elim_some]
    cases n with
    | zero => rw [walk,List.findSome?_cons,hself]
    | succ n => rw [walk,List.findSome?_cons,hself]

theorem bindingByID_below {b : PolicyBinding} {h new : Row} (hb : b ∈ db.bindings) (hholds : b.Holds h) (hbelow : db.Below h new) :
    db.bindingByID new.parentTransaction = some b := by
  obtain ⟨-,hfound | ⟨q,hq,hstatus,haction,hparent,hfound⟩⟩ := hbelow
  · exact search_hold hdb hid hb hfound hholds 15
  have hkey : q.transactionID = new.parentTransaction := find_key hq
  have hown : find transactionID db.bindings new.parentTransaction = none := by
    rw [find_eq_none]
    intro x hx he
    exact (hid.ids x hx q (find_mem hq) (hkey.trans he.symm)).2 haction
  have hnext : db.parentRow new.parentTransaction = some q.parentTransaction := by
    unfold parentRow
    rw [hq,bind_some,if_neg]
    rintro (he | he)
    · exact hparent he
    · rw [he,hkey,hq] at hfound
      cases hfound
      rw [hholds.1] at hstatus
      cases hstatus
  unfold bindingByID
  rw [walk,List.findSome?_cons,hown,hnext]
  exact search_hold hdb hid hb hfound hholds 14

end

theorem checkPosting_settling {original : Bool} {a : PolicyAdmission} (hnew : Settling new)
    (h : checkPosting original b (some a.decision) new = .ok ()) : (a.decision = .approved ∨ a.decision = .notRequired) ∧
      (new.status = .applied → original = true → a.decision = .notRequired) := by
  unfold checkPosting at h
  rw [hnew.1] at h
  split_ifs at h with hdetails hreleased hrejected happroval hhold
  have hdecision : a.decision = .approved ∨ a.decision = .notRequired := by
    by_contra hne
    push Not at hne
    exact happroval ⟨rfl,hnew.2,fun he => hne.1 (some.inj he),fun he => hne.2 (some.inj he),nofun⟩
  refine ⟨hdecision,fun happlied horiginal => hdecision.resolve_left fun happroved => ?_⟩
  exact hhold ⟨happlied,horiginal,congrArg some happroved⟩

theorem enforce_original (hdb : Accounted db) (hid : Identified db) (hb : b ∈ db.bindings)
    (hnames : b.names new.reference = true) (h : db.enforcePolicyPosting env new = .ok ()) :
    checkPosting true b ((db.admissionOf b).map PolicyAdmission.decision) new = .ok () := by
  have hmem : b ∈ db.bindings.filter fun x => x.names new.reference := List.mem_filter.mpr ⟨hb,hnames⟩
  unfold enforcePolicyPosting at h
  split at h
  · rename_i x hx
    obtain ⟨hxmem,hxnames⟩ := List.mem_filter.mp (env.pick.mem _ _ hx)
    rwa [hid.unique hdb.references hb hxmem hnames hxnames] at h
  · rename_i hnone
    exact absurd hnone (env.pick.found _ (List.ne_nil_of_mem hmem))

theorem checkPolicyCommit_ok {id : String} {a : PolicyAdmission} (hb : db.bindingByID id = some b)
    (ha : db.admissionOf b = some a) (h : db.checkPolicyCommit id = .ok ()) : a.decision = .approved ∨ a.decision = .notRequired := by
  unfold checkPolicyCommit at h
  simp only [hb,ha] at h
  split at h
  · assumption
  · cases h

theorem releaseExcess_ledger (h : db.releaseExcess b = .ok db') : db'.ledger = db.ledger := by
  unfold releaseExcess at h
  split at h
  · obtain ⟨mid,hmid,h⟩ := bind_ok h
    obtain ⟨usage,-,hmid⟩ := bind_ok hmid
    cases hmid
    cases h
    rfl
  · cases h
    rfl

theorem releaseTerminal_ledger (h : db.releaseTerminalPolicyReservation new = .ok db') : db'.ledger = db.ledger := by
  unfold releaseTerminalPolicyReservation at h
  split at h
  · cases h
    rfl
  split at h
  · cases h
    rfl
  obtain ⟨mid,hmid,h⟩ := bind_ok h
  cases h
  have hsame := releaseExcess_ledger hmid
  exact hsame

theorem releasePolicyLeg_ledger {id : String} (h : db.releasePolicyLeg id = .ok db') : db'.ledger = db.ledger := by
  unfold releasePolicyLeg at h
  split at h
  · cases h
    rfl
  split_ifs at h
  · cases h
    rfl
  obtain ⟨mid,hmid,h⟩ := bind_ok h
  cases h
  have hsame := releaseExcess_ledger hmid
  exact hsame

theorem insertTransaction_ok (h : db.insertTransaction env new = .ok db') :
    db.enforcePolicyPosting env new = .ok () ∧ db'.ledger.transactions = db.ledger.transactions ++ [new] := by
  obtain ⟨_,henforce,h⟩ := bind_ok h
  obtain ⟨ledger,hinsert,h⟩ := bind_ok h
  refine ⟨henforce,?_⟩
  rw [releaseTerminal_ledger h]
  unfold insertRow at hinsert
  split at hinsert
  · cases hinsert
  split_ifs at hinsert
  cases hinsert
  rfl

/-- A row that appears in a step passed the trigger, and unless it ends something it is no settlement or its hold may
be committed. -/
theorem inserted (hdb : Accounted db) {e : PolicyEvent} (h : db.attempt env e = .ok db')
    (hnew : new ∈ db'.ledger.transactions) (hold : new ∉ db.ledger.transactions) :
    db.enforcePolicyPosting env new = .ok () ∧ (Row.ends new = true ∨ db.settles new = false ∨
      db.checkPolicyCommit new.parentTransaction = .ok ()) := by
  have hkept : db'.ledger.transactions ≠ db.ledger.transactions := fun he => hold (he ▸ hnew)
  have hthis : ∀ {row : Row}, db'.ledger.transactions = db.ledger.transactions ++ [row] → new = row := fun he => by
    rw [he] at hnew
    exact List.mem_singleton.mp ((List.mem_append.mp hnew).resolve_left hold)
  cases e with
  | createBalance id currency =>
    cases h
    refine absurd ?_ hkept
    unfold createBalance
    split <;> rfl
  | createKey k =>
    obtain ⟨keys,-,h⟩ := bind_ok h
    cases h
    exact absurd rfl hkept
  | putPolicy manager p =>
    rw [attempt,putKeyPolicy] at h
    split_ifs at h
    obtain ⟨_,-,h⟩ := bind_ok h
    obtain ⟨_,-,h⟩ := bind_ok h
    obtain ⟨_,-,h⟩ := bind_ok h
    obtain ⟨_,-,h⟩ := bind_ok h
    obtain ⟨_,-,h⟩ := bind_ok h
    cases h
    exact absurd rfl hkept
  | deletePolicy manager id =>
    obtain ⟨_,-,h⟩ := bind_ok h
    obtain ⟨_,-,h⟩ := bind_ok h
    cases h
    exact absurd rfl hkept
  | admission r =>
    obtain ⟨⟨admitted,a⟩,hadmission,h⟩ := bind_ok h
    cases h
    rcases admitPolicyTransactions_ok hdb hadmission with rfl | ⟨ids,p,x,-,-,-,hadmitted⟩
    · exact absurd rfl hkept
    · exact absurd (congrArg transactions hadmitted.ledger) hkept
  | decision id p approve =>
    rw [attempt,decideAdmission] at h
    split at h
    · cases h
    obtain ⟨_,-,h⟩ := bind_ok h
    cases h
    exact absurd rfl hkept
  | posting marked row =>
    rw [attempt] at h
    split_ifs at h with hsettles
    obtain ⟨_,-,h⟩ := bind_ok h
    obtain ⟨henforce,hrows⟩ := insertTransaction_ok h
    obtain rfl := hthis hrows
    rw [not_and_or,Bool.not_eq_true,Bool.not_eq_true',Bool.not_eq_false] at hsettles
    tauto
  | settlement row =>
    obtain ⟨_,hcommit,h⟩ := bind_ok h
    obtain ⟨henforce,hrows⟩ := insertTransaction_ok h
    obtain rfl := hthis hrows
    exact ⟨henforce,.inr (.inr hcommit)⟩
  | voiding row =>
    rw [attempt] at h
    split_ifs at h with hvoid
    obtain ⟨henforce,hrows⟩ := insertTransaction_ok h
    obtain rfl := hthis hrows
    refine ⟨henforce,.inl ?_⟩
    rw [Row.ends,hvoid]
    rfl
  | release id => exact absurd (congrArg transactions (releasePolicyLeg_ledger h)) hkept

theorem settles_of_below {h : Row} (hstatus : h.status = .inflight) (hbelow : db.Below h new) : db.settles new = true := by
  unfold settles
  obtain ⟨-,hfound | ⟨q,hq,hqueued,haction,-⟩⟩ := hbelow
  · rw [hfound,any_some,hstatus]
    rfl
  · rw [hq,any_some,hqueued,haction]
    rfl

theorem step_approved (hdb : Accounted db) (hid : Identified db) {e : PolicyEvent}
    (hnew : new ∈ (db.step env e).ledger.transactions) (hold : new ∉ db.ledger.transactions) (hsettling : Settling new) (hb : b ∈ db.bindings) (hbound : db.Bound b new) :
    ∃ a ∈ db.admissions, a.id = b.admissionID ∧ (a.decision = .approved ∨ a.decision = .notRequired) ∧
      (new.status = .applied → a.decision = .notRequired ∨ ∃ h, b.Holds h ∧ db.Below h new) := by
  have hok := (step_cases env db e).resolve_right fun hsame => hold (hsame ▸ hnew)
  obtain ⟨henforce,hcheck⟩ := inserted hdb hok hnew hold
  obtain ⟨a,hfind⟩ : ∃ a, db.admissionOf b = some a := exists_find (hdb.bound b hb)
  refine ⟨a,find_mem hfind,find_key hfind,?_⟩
  rcases hbound with hnames | ⟨h,hholds,hbelow⟩
  · have hposting := enforce_original hdb hid hb hnames henforce
    rw [hfind] at hposting
    obtain ⟨hdecision,happlied⟩ := checkPosting_settling hsettling hposting
    exact ⟨hdecision,fun h => .inl (happlied h rfl)⟩
  have hcommit : db.checkPolicyCommit new.parentTransaction = .ok () := by
    rcases hcheck with hends | hsettles | hcommit
    · rw [hsettling.1] at hends
      cases hends
    · rw [settles_of_below hholds.1 hbelow] at hsettles
      cases hsettles
    · exact hcommit
  exact ⟨checkPolicyCommit_ok (bindingByID_below hdb hid hb hholds hbelow) hfind hcommit,fun _ => .inr ⟨h,hholds,hbelow⟩⟩

/-- Along every run that keeps references and identifiers together, settling rows of a leg are inserted only under an
approval or without the need for one, a leg that needs approval is applied only through its hold, and decisions stay. -/
theorem approval_precedes_settlement (env : Environment) (ledger : Database) (events : List PolicyEvent)
    (hid : ∀ n < events.length, Identified ((install ledger).run env (events.take n))) :
    ∀ n, (hn : n < events.length) →
      let db := (install ledger).run env (events.take n)
      (∀ new ∈ (db.step env events[n]).ledger.transactions, new ∉ db.ledger.transactions → Settling new →
        ∀ b ∈ db.bindings, db.Bound b new → ∃ a ∈ db.admissions, a.id = b.admissionID ∧
          (a.decision = .approved ∨ a.decision = .notRequired) ∧
          (new.status = .applied → a.decision = .notRequired ∨ ∃ h, b.Holds h ∧ db.Below h new)) ∧
      ∀ a ∈ db.admissions, ∃ x ∈ (db.step env events[n]).admissions, x.id = a.id ∧ (a.decision ≠ .pending → x.decision = a.decision) ∧
        (a.decision = .pending → x.decision ≠ .notRequired) := by
  intro n hn db
  have hdb : Accounted db := (accounted_install ledger).run env _
  refine ⟨fun new hnew hold hsettling b hb hbound => ?_,fun a ha => ?_⟩
  · exact step_approved hdb (hid n hn) hnew hold hsettling hb hbound
  · obtain ⟨x,hx,hxid,hfollows⟩ := (hdb.step env events[n]).2.admissions a ha
    exact ⟨x,hx,hxid,hfollows.1,hfollows.2⟩

def firstRow : Pick := ⟨List.head?,fun _ _ h => List.mem_of_mem_head? h,fun _ hl h => hl (List.head?_eq_none_iff.mp h)⟩

def plainEnvironment : Environment := ⟨id,fun legs => String.join (legs.map PolicyLeg.reference),firstRow⟩

def heldLeg : PolicyLeg where
  transactionID := "t1"
  reference := "x"
  source := "a"
  destination := "b"
  sourceLedger := "ledger"
  destinationLedger := "ledger"
  currency := "USD"
  precision := Float64.ofInt 100
  amount := "50"

def heldRow (id parent reference : String) (status : Status) : Row where
  transactionID := id
  parentTransaction := parent
  source := "a"
  destination := "b"
  reference := reference
  currency := "USD"
  amount := "0.5"
  preciseAmount := some 50
  precision := 100
  rate := Float64.ofInt 1
  overdraftLimit := Float64.ofInt 0
  status := status
  queueAction := .unset
  controls := ⟨1,false,decide (status = .inflight),false,false,.economic,""⟩

def admissionEvents : List PolicyEvent :=
  [.createBalance "a" "USD",.createBalance "b" "USD",.createKey ⟨"agent",none⟩,
    .putPolicy ⟨"",true,[]⟩ (dollarPolicy "agent" "" "" "10" ["a","b"]),.admission ⟨"adm",0,"agent","x",[heldLeg]⟩]

/-- Another client posts the hold under the admitted reference with its own identifier. -/
def strayEvents : List PolicyEvent := admissionEvents ++ [.posting false (heldRow "t2" "" "x" .inflight)]

/-- The hold is committed while the decision is pending: neither check finds the binding of its leg. -/
theorem pending_hold_settled :
    let db := (install .empty).run plainEnvironment strayEvents
    let new := heldRow "t3" "t2" "ref" .applied
    new ∈ (db.step plainEnvironment (.settlement new)).ledger.transactions ∧ new ∉ db.ledger.transactions ∧ Settling new ∧
      ∃ b ∈ db.bindings, db.Bound b new ∧ ∃ a ∈ db.admissions, a.id = b.admissionID ∧ a.decision = .pending := by
  intro db new
  have hrows : new ∈ (db.step plainEnvironment (.settlement new)).ledger.transactions ∧ new ∉ db.ledger.transactions := by
    decide +kernel
  have hbinding : heldLeg.binding "adm" ∈ db.bindings := by decide +kernel
  have hpending : ∃ a ∈ db.admissions, a.id = "adm" ∧ a.decision = .pending := by decide +kernel
  have hbelow : db.ledger.findTransaction "t2" = some (heldRow "t2" "" "x" .inflight) := by decide +kernel
  refine ⟨hrows.1,hrows.2,⟨rfl,.inl rfl⟩,_,hbinding,.inr ⟨_,⟨rfl,?_⟩,?_,.inl hbelow⟩,hpending⟩
  all_goals decide

instance (db : PolicyDatabase) : Decidable (Identified db) :=
  decidable_of_iff
    ((∀ b ∈ db.bindings, ∀ x ∈ db.bindings, x.reference ≠ b.reference ++ "_q") ∧
      (∀ b ∈ db.bindings, ∀ r ∈ db.ledger.transactions, r.transactionID = b.transactionID →
        b.names r.reference = true ∧ r.queueAction ≠ .commit) ∧
      ∀ b ∈ db.bindings, ∀ h ∈ db.ledger.transactions, h.status = .inflight → b.names h.reference = true →
        h.transactionID = b.transactionID ∨ b.transactionID ≠ "" ∧ h.parentTransaction = b.transactionID)
    ⟨fun ⟨hrefs,hids,hholds⟩ => ⟨hrefs,hids,hholds⟩,fun h => ⟨h.references,h.ids,h.holds⟩⟩

def approvedEvents : List PolicyEvent :=
  admissionEvents ++ [.posting true (heldRow "t1" "" "x" .inflight),.decision "adm" ⟨"",true,[]⟩ true,
    .settlement (heldRow "t3" "t1" "ref" .applied)]

theorem approved_hold_settled :
    let db := (install .empty).run plainEnvironment (approvedEvents.take 7)
    let new := heldRow "t3" "t1" "ref" .applied
    new ∈ (db.step plainEnvironment (.settlement new)).ledger.transactions ∧ ∃ a ∈ db.admissions, a.id = "adm" ∧
      (a.decision = .approved ∨ a.decision = .notRequired) := by
  intro db new
  have hid : ∀ n < approvedEvents.length, Identified ((install .empty).run plainEnvironment (approvedEvents.take n)) := by
    decide +kernel
  have hrows : new ∈ (db.step plainEnvironment (.settlement new)).ledger.transactions ∧ new ∉ db.ledger.transactions := by
    decide +kernel
  have hbinding : heldLeg.binding "adm" ∈ db.bindings := by decide +kernel
  have hbelow : db.ledger.findTransaction "t1" = some (heldRow "t1" "" "x" .inflight) := by decide +kernel
  have hbound : db.Bound (heldLeg.binding "adm") new := .inr ⟨_,⟨rfl,by decide⟩,by decide,.inl hbelow⟩
  obtain ⟨a,ha,haid,hdecision,-⟩ := (approval_precedes_settlement plainEnvironment .empty approvedEvents hid 7 (by decide)).1
    new hrows.1 hrows.2 ⟨rfl,.inl rfl⟩ _ hbinding hbound
  exact ⟨hrows.1,a,ha,haid,hdecision⟩

end LedgerForge.Policy
