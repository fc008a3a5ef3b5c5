import LedgerForge.Engine.Outcomes
import LedgerForge.Engine.Requests

/-! # Rows read back and well-formed rows

A row determines the transaction it was stored from up to the major-unit amount and the schedule, so the queue copy of
an intent repeats the stored intent. The engine stores rows with a positive integral precision, a converted amount,
valid rates and limits, and a text that reads back.
-/

namespace LedgerForge

open Database ExecutionControls RatText Bool

/-- The transaction a row describes, with a major-unit amount and a schedule flag of its own. -/
def Row.asTransaction (r : Row) (amount : Float64) (text : String) (scheduled : Bool) : Transaction :=
  r.controls.apply
    { transactionID := r.transactionID, parentTransaction := r.parentTransaction, parentKind := .unset,
      queuedParent := "", source := r.source, destination := r.destination, reference := r.reference,
      currency := r.currency, amount := amount, amountString := text, preciseAmount := r.preciseAmount,
      precision := Float64.ofInt r.precision, rate := r.rate, overdraftLimit := r.overdraftLimit,
      status := r.status, queueAction := r.queueAction, allowOverdraft := false, inflight := false,
      skipQueue := false, atomic := false, scheduled := scheduled }

variable {t : Transaction} {db : Database}

theorem toTransaction_ok {r : Row} (h : r.toTransaction = .ok t) :
    ∃ major, setString r.amount = some major ∧ (Float64.ofRat major).isFinite = true ∧
      t = r.asTransaction (Float64.ofRat major) "" false := by
  rw [Row.toTransaction] at h
  split at h
  · rename_i major minor hmajor hminor
    obtain ⟨hfinite,h⟩ := ok_of_guard h
    cases h
    exact ⟨major,hmajor,by simpa using hfinite,by rw [Row.asTransaction,hminor]⟩
  · cases h

theorem getTransaction_ok {id : String} (h : db.getTransaction id = .ok t) :
    ∃ r, db.findTransaction id = some r ∧ r.toTransaction = .ok t := by
  rw [getTransaction] at h
  split at h
  · cases h
  · rename_i r hr
    exact ⟨r,hr,h⟩

theorem findTransaction_mem {id : String} {r : Row} (h : db.findTransaction id = some r) :
    r ∈ db.transactions ∧ r.transactionID = id := ⟨Keyed.find_mem h,Keyed.find_key h⟩

namespace Database.StoredAs

theorem asTransaction {t : Transaction} {r : Row} (h : StoredAs t r) :
    t = r.asTransaction t.amount t.amountString t.scheduled := by
  obtain ⟨a,p,ha,hp,-,-,rfl⟩ := h.columns
  have hprecision := Float64.ofInt_toInt? hp
  cases t
  simp only at ha hprecision
  simp only [Row.asTransaction,Transaction.columns,Transaction.executionControls,apply,ha,hprecision]

end Database.StoredAs

/-- A queue copy of a stored intent. -/
structure CopyOf (t : Transaction) (i : Row) : Prop where
  parent : t.parentTransaction = i.transactionID
  kind : t.parentKind ≠ .group
  reference : t.reference = i.reference ++ "_q"
  source : t.source = i.source
  destination : t.destination = i.destination
  currency : t.currency = i.currency
  preciseAmount : t.preciseAmount = i.preciseAmount
  precision : t.precision = Float64.ofInt i.precision
  rate : t.rate = i.rate
  overdraftLimit : t.overdraftLimit = i.overdraftLimit
  status : t.status = if i.queueAction = .commit then .commit else i.status
  action : t.queueAction = i.queueAction
  inflight : t.inflight = if i.queueAction = .commit then false else i.controls.inflight
  allowOverdraft : t.allowOverdraft = i.controls.allowOverdraft
  atomic : t.atomic = i.controls.atomic
  skipQueue : t.skipQueue = i.controls.skipQueue
  queuedParent : t.queuedParent = i.controls.queuedParent

@[simp] theorem createQueueCopy_transactionID (t : Transaction) (reference copyID : String) :
    (t.createQueueCopy reference copyID).transactionID = copyID := by
  rw [Transaction.createQueueCopy]
  split <;> rfl

theorem copyOf_createQueueCopy (i : Row) (amount : Float64) (text : String) (scheduled : Bool) (copyID : String) :
    CopyOf ((i.asTransaction amount text scheduled).createQueueCopy i.reference copyID) i := by
  have haction : (i.asTransaction amount text scheduled).queueAction = i.queueAction := rfl
  by_cases hc : i.queueAction = .commit <;> rw [Transaction.createQueueCopy,haction] <;> simp only [hc,if_true,if_false] <;>
    constructor <;> simp [Row.asTransaction,apply,hc]

variable {i : Row}

theorem CopyOf.payload (h : CopyOf t i) : CopyOf t.payload i :=
  { h with kind := fun hk => by cases hk }

theorem withIntentControls_copy {t' : Transaction} (hc : CopyOf t i)
    (hi : db.findTransaction i.transactionID = some i) (h : db.withIntentControls t = .ok t') : t' = t := by
  rw [withIntentControls] at h
  split at h
  · cases h
    rfl
  obtain ⟨intent,hintent,hrest⟩ := bind_ok h
  rw [hc.parent] at hintent
  obtain ⟨r,hr,hread⟩ := getTransaction_ok hintent
  obtain rfl : i = r := Option.some.inj (hi.symm.trans hr)
  obtain ⟨major,-,-,rfl⟩ := toTransaction_ok hread
  split at hrest
  · cases hrest
    have hinflight := hc.inflight
    have haction := hc.action
    have hlimit := hc.overdraftLimit
    have hallow := hc.allowOverdraft
    have hatomic := hc.atomic
    have hskip := hc.skipQueue
    have hqueued := hc.queuedParent
    cases t
    simp only at hinflight haction hlimit hallow hatomic hskip hqueued
    subst haction hlimit hallow hatomic hskip hqueued
    by_cases hcommit : i.queueAction = .commit
    · simp [Row.asTransaction,apply,Transaction.executionControls,hcommit,hinflight]
    · simp [Row.asTransaction,apply,Transaction.executionControls,hcommit,hinflight]
  · cases hrest
    rfl

theorem processQueuedTransaction_copy {db' : Database} {queuedDebit : Option ℤ}
    (hc : CopyOf t i) (hi : db.findTransaction i.transactionID = some i)
    (h : db.processQueuedTransaction t queuedDebit = .ok db') : db.recordTransactionSingle t true queuedDebit = .ok db' := by
  obtain ⟨t',ht',hrecord⟩ := bind_ok h
  rwa [withIntentControls_copy hc hi ht'] at hrecord

open Transaction Float64 Option

namespace Transaction

theorem setString_majorText (a : ℤ) (precision : Float64) :
    setString (majorText a precision) = some (majorDecimal a precision).value := by
  refine setString_text _ ((Decimal.textDigits_fraction_length _).trans ?_)
  have hplaces := decimalPlaces_le precision
  rw [majorDecimal,Decimal.divRound_exp]
  omega

variable {t : Transaction}

/-- The stored amount of an intent: converted, or zero because it was zero or overflowed the double. -/
inductive Intended (t : Transaction) : Prop
  | positive (a : ℤ) (positive : 0 < a) (materialised : t.Materialised a)
  | zero (a : ℤ) (terms : t.ValidTerms) (scale : t.precision.orOne = t.precision) (preciseAmount : t.preciseAmount = some 0)
      (text : t.amountString = majorText a t.precision)
      (lost : a = 0 ∨ (ofRat (majorDecimal a t.precision).value).isFinite = false)

theorem Materialised.frame {u : Transaction} {a : ℤ} (h : t.Materialised a) (hp : u.precision = t.precision)
    (hr : u.rate = t.rate) (hl : u.overdraftLimit = t.overdraftLimit) (ha : u.preciseAmount = t.preciseAmount)
    (hs : u.amountString = t.amountString) (hm : u.amount = t.amount) : u.Materialised a :=
  ⟨⟨hp ▸ h.terms.precision,hr ▸ h.terms.rate,hl ▸ h.terms.limit⟩,hp ▸ h.scale,ha ▸ h.preciseAmount,
    by rw [hs,hp,h.text],by rw [hm,hp,h.amount]⟩

theorem materialised_setTransactionMetadata (h : t.validateMonetaryFields = .ok ()) (newID : String) :
    (t.setTransactionMetadata newID).Materialised t.resolvedAmount := by
  rw [setTransactionMetadata,applyPrecision_of_valid h]
  exact (materialised_materialise (validTerms_of_valid h) _).frame rfl rfl rfl rfl rfl rfl

theorem Materialised.intended {a : ℤ} (h : t.Materialised a) (ha : 0 ≤ a) (newID : String) :
    (t.setTransactionMetadata newID).Intended := by
  cases hv : t.validateMonetaryFields with
  | ok =>
    have hm := materialised_setTransactionMetadata hv newID
    rw [h.resolvedAmount_eq ha] at hm
    rcases ha.lt_or_eq with hpos | rfl
    · exact .positive a hpos hm
    · exact .zero 0 hm.terms hm.scale hm.preciseAmount hm.text (.inl rfl)
  | error e =>
    rw [setTransactionMetadata,applyPrecision_of_invalid hv]
    refine .zero a ⟨h.terms.precision,h.terms.rate,h.terms.limit⟩ h.scale rfl h.text (.inr ?_)
    refine eq_false_of_not_eq_true fun hfinite => ?_
    rw [(h.valid_iff ha).mpr (h.amount ▸ hfinite)] at hv
    cases hv

end Transaction

/-- The money of a row that moves, or is meant to move, an amount. -/
structure Row.Converted (r : Row) : Prop where
  text : r.amount = majorText r.minor (ofInt r.precision)
  rate : validateFinite r.rate "rate must be finite and positive (or zero for the default)" = .ok ()
  limit : validateFinite r.overdraftLimit "overdraft limit must be finite and non-negative" = .ok ()

def Row.InRange (r : Row) : Prop :=
  (ofRat (majorDecimal r.minor (ofInt r.precision)).value).isFinite = true
deriving Decidable

structure Row.Sound (r : Row) : Prop where
  version : r.controls.economicVersion = 1
  scale : 0 < r.precision
  range : r.precision < 2^63
  integral : (ofInt r.precision).toInt? = some r.precision
  amount : ∃ a, r.preciseAmount = some a
  nonneg : r.IsIntent → 0 ≤ r.minor
  posted : ¬ r.IsIntent → r.status ≠ .rejected → 0 < r.minor
  converted : r.status ≠ .rejected → 0 < r.minor → r.Converted
  held : r.status = .inflight → r.InRange
  readable : r.IsIntent → ∀ t, r.toQueuedTransaction = .ok t → ∃ amount text, t = r.asTransaction amount text false

variable {p a : ℤ} {r : Row} {t : Transaction}

theorem orOne_of_toInt? {x : Float64} (hp : 0 < p) (h : x.toInt? = some p) : x.orOne = x := by
  rw [orOne]
  split
  · rename_i hz
    cases x with
    | nan => cases hz
    | inf neg => cases hz
    | finite d hd =>
      simp only [toInt?,ite_none_right_eq_some,some.injEq] at h
      have hzero : d.value = 0 := by rw [Decimal.value,of_decide_eq_true hz,Int.cast_zero,zero_mul]
      rw [hzero] at h
      exact absurd h.2 hp.ne
  · rfl

theorem validatePrecision_of_toInt? {x : Float64} (h : x.toInt? = some p) (hp : 0 < p) :
    validatePrecision x = .ok () := by
  cases x with
  | nan => cases h
  | inf neg => cases h
  | finite d hd =>
    have hsome : (finite d hd).toInt?.isNone = false := by rw [h]; rfl
    simp only [toInt?,ite_none_right_eq_some,some.injEq] at h
    have hsign : (finite d hd).negative = false := by
      apply eq_false_of_not_eq_true
      intro hneg
      have hcoef : d.coef < 0 := of_decide_eq_true hneg
      have hvalue : d.value < 0 := mul_neg_of_neg_of_pos (Int.cast_lt_zero.mpr hcoef) (Decimal.tenPow_pos _)
      have hnum := Rat.num_neg.mpr hvalue
      omega
    rw [validatePrecision,hsome,hsign]
    rfl

theorem toTransaction_of_inRange (hc : r.Converted) (ha : r.preciseAmount = some a) (hr : r.InRange) :
    r.toTransaction = .ok (r.asTransaction
      (ofRat (majorDecimal r.minor (ofInt r.precision)).value) "" false) := by
  have hread : setString r.amount =
      some (majorDecimal r.minor (ofInt r.precision)).value := by
    rw [hc.text,setString_majorText]
  rw [Row.toTransaction,hread,ha]
  have hfinite : (!(ofRat (majorDecimal r.minor (ofInt r.precision)).value).isFinite) = false := by
    rw [not_eq_false']
    exact hr
  simp only [hfinite,false_eq_true,if_false]
  rw [Row.asTransaction,ha]

theorem asTransaction_materialise (ha : r.preciseAmount = some a)
    (hone : (ofInt r.precision).orOne = ofInt r.precision) (amount : Float64) (text : String)
    (scheduled : Bool) : (r.asTransaction amount text scheduled).materialise a = r.asTransaction
      (ofRat (majorDecimal a (ofInt r.precision)).value)
      (majorText a (ofInt r.precision)) scheduled := by
  simp only [materialise,convertPreciseToDecimal,Row.asTransaction,ExecutionControls.apply,hone,ha]
  rfl

theorem readable_of_resolved (ha : r.preciseAmount = some a) (hp : 0 < r.precision)
    (hi : (ofInt r.precision).toInt? = some r.precision)
    (hres : ∀ t, r.toTransaction = .ok t → t.validateMonetaryFields = .ok () → t.resolvedAmount = a)
    (t : Transaction) (h : r.toQueuedTransaction = .ok t) : ∃ amount text, t = r.asTransaction amount text false := by
  rw [Row.toQueuedTransaction] at h
  cases hread : r.toTransaction with
  | error e =>
    rw [hread] at h
    cases h
  | ok u =>
    rw [hread] at h
    cases h
    obtain ⟨major,-,-,hu⟩ := toTransaction_ok hread
    change ∃ amount text, u.applyPrecision.2 = _
    cases hv : u.validateMonetaryFields with
    | error e =>
      rw [applyPrecision_of_invalid hv]
      exact ⟨_,_,hu⟩
    | ok =>
      rw [applyPrecision_of_valid hv,hres u hread hv,hu]
      exact ⟨_,_,asTransaction_materialise ha (orOne_of_toInt? hp hi) _ _ _⟩

theorem not_intent_of_inflight (h : r.status = .inflight) : ¬ r.IsIntent := by
  rintro (hs | hs) <;> rw [h] at hs <;> cases hs

/-- Stored intents are well formed. -/
theorem sound_of_intended {u : Transaction} (hs : StoredAs u r) (hu : u.Intended) (hi : r.IsIntent) :
    r.Sound := by
  obtain ⟨a,p,ha,hp,-,hhigh,rfl⟩ := hs.columns
  have hprecision : ofInt p = u.precision := ofInt_toInt? hp
  cases hu with
  | positive a' hpos hm =>
    obtain rfl : a = a' := some.inj (ha.symm.trans hm.preciseAmount)
    have hscale : 0 < p := orOne_toInt?_pos hm.terms.precision (hm.scale.symm ▸ hp)
    have hintegral : (ofInt p).toInt? = some p := hprecision ▸ hp
    refine ⟨rfl,hscale,hhigh,hintegral,⟨a,rfl⟩,fun _ => hpos.le,fun hn => absurd hi hn,fun _ _ => ⟨?_,hm.terms.rate,hm.terms.limit⟩,
      fun hold => absurd hi (not_intent_of_inflight hold),fun _ => readable_of_resolved rfl hscale hintegral fun t ht _ => ?_⟩
    · exact hprecision ▸ hm.text
    · obtain ⟨major,-,-,rfl⟩ := toTransaction_ok ht
      exact if_pos hpos
  | zero a' terms scale preciseAmount text lost =>
    obtain rfl : a = 0 := some.inj (ha.symm.trans preciseAmount)
    have hscale : 0 < p := orOne_toInt?_pos terms.precision (scale.symm ▸ hp)
    have hintegral : (ofInt p).toInt? = some p := hprecision ▸ hp
    refine ⟨rfl,hscale,hhigh,hintegral,⟨0,rfl⟩,fun _ => le_rfl,fun hn => absurd hi hn,fun _ hpos => absurd hpos (lt_irrefl 0),
      fun hold => absurd hi (not_intent_of_inflight hold),fun _ => readable_of_resolved rfl hscale hintegral fun t ht hv => ?_⟩
    obtain ⟨major,hmajor,-,rfl⟩ := toTransaction_ok ht
    have htext : (u.columns 0 p).amount = majorText a' u.precision := text
    rw [htext,setString_majorText] at hmajor
    cases hmajor
    rcases lost with rfl | hlost
    · have hzero := majorDecimal_zero (precision_pos terms.precision scale)
      have hvalue : (majorDecimal 0 u.precision).value = 0 := by
        rw [Decimal.value,hzero,Int.cast_zero,zero_mul]
      refine (if_neg (lt_irrefl 0)).trans (convertDecimalToPrecise_zero ?_)
      have hread : (ofRat 0).decimal.coef = 0 := by decide +kernel
      rw [hvalue]
      exact Decimal.text_of_coef_zero hread
    · have hfinite := ((validateAmountField_iff _).mp ((validateMonetaryFields_iff _).mp hv).1).2
      exact Bool.noConfusion (hfinite.symm.trans hlost)

theorem not_intent_postedRow (t : Transaction) (a p : ℤ) : ¬ (t.postedRow a p).IsIntent := by
  rw [Row.IsIntent,postedRow]
  cases t.inflight <;> cases t.status <;> simp [applicableStatus]

theorem inflight_of_postedRow (h : (t.postedRow a p).status = .inflight) : t.inflight = true := by
  rw [postedRow] at h
  revert h
  cases t.inflight <;> cases t.status <;> simp [applicableStatus]

/-- Posted rows are well formed. -/
theorem PostedAs.sound (h : PostedAs t r a p)
    (hvoid : t.status = .void → t.Materialised a) (hheld : t.inflight = true → t.status ≠ .void ∧ t.Materialised a) :
    r.Sound := by
  obtain ⟨rfl,hpos,-,hp,⟨-,hhigh⟩,-,hvalid⟩ := h
  have hterms : (t.persisted a).rate = (t.postedRow a p).rate ∧
      (t.persisted a).overdraftLimit = (t.postedRow a p).overdraftLimit := by
    rw [persisted]
    split <;> exact ⟨rfl,rfl⟩
  have hm : (t.persisted a).Materialised a := by
    rw [persisted]
    split
    · rename_i hv
      exact hvoid hv
    · rename_i hv
      exact materialised_materialise (validTerms_of_valid (hvalid hv)) a
  have hscale : 0 < p := orOne_toInt?_pos hm.terms.precision (hm.scale.symm ▸ hp)
  have hprecision := ofInt_toInt? hp
  refine ⟨rfl,hscale,hhigh,?_,⟨a,rfl⟩,fun _ => hpos.le,fun _ _ => hpos,fun _ _ => ⟨?_,hterms.1 ▸ hm.terms.rate,hterms.2 ▸ hm.terms.limit⟩,
    fun hold => ?_,fun hi => absurd hi (not_intent_postedRow t a p)⟩
  · change (ofInt p).toInt? = some p
    rw [hprecision,hp]
  · change (t.persisted a).amountString = majorText a (ofInt p)
    rw [hprecision,hm.text]
  · -- the amount of a hold was validated after its conversion
    obtain ⟨hv,ht⟩ := hheld (inflight_of_postedRow hold)
    have hsame : (t.persisted a).precision = t.precision := by
      rw [persisted,if_neg hv]
      exact ht.scale
    have hfinite := (ht.valid_iff hpos.le).mp (hvalid hv)
    rw [ht.amount,← hsame,← hprecision] at hfinite
    exact hfinite

theorem Row.Sound.orOne (h : r.Sound) : (ofInt r.precision).orOne = ofInt r.precision :=
  orOne_of_toInt? h.scale h.integral

theorem inRange_of_toTransaction (hc : r.Converted) (h : r.toTransaction = .ok t) :
    r.InRange := by
  obtain ⟨major,hmajor,hfinite,-⟩ := toTransaction_ok h
  rw [hc.text,setString_majorText] at hmajor
  rw [Row.InRange,some.inj hmajor]
  exact hfinite

theorem Row.Sound.valid_asTransaction (h : r.Sound) (hc : r.Converted) (hpos : 0 ≤ r.minor) (hr : r.InRange) :
    (r.asTransaction (ofRat (majorDecimal r.minor (ofInt r.precision)).value) ""
      false).validateMonetaryFields = .ok () := by
  have hprecision := validatePrecision_of_toInt? h.integral h.scale
  have hcoef : 0 ≤ (majorDecimal r.minor (ofInt r.precision)).coef :=
    Decimal.divRound_coef_nonneg hpos (precision_nonneg hprecision) _
  have hnonneg : 0 ≤ (majorDecimal r.minor (ofInt r.precision)).value :=
    mul_nonneg (Int.cast_nonneg hcoef) (Decimal.tenPow_pos _).le
  refine (validateMonetaryFields_iff _).mpr ⟨?_,rfl,hprecision,hc.rate,hc.limit⟩
  exact (validateAmountField_iff _).mpr ⟨ofRat_not_negative hnonneg,hr⟩

/-- An intent read back for execution has its amount converted. -/
theorem Row.Sound.materialised_of_queued (h : r.Sound) (hi : r.IsIntent) (hpos : 0 < r.minor)
    (ht : r.toQueuedTransaction = .ok t) : t.Materialised r.minor ∧ t.amount.isFinite = true := by
  have hconverted : r.Converted := by
    apply h.converted _ hpos
    rcases hi with hs | hs <;> rw [hs] <;> decide
  obtain ⟨a,ha⟩ := h.amount
  have hminor : r.minor = a := by rw [Row.minor,ha,getD_some]
  rw [Row.toQueuedTransaction] at ht
  cases hread : r.toTransaction with
  | error e =>
    rw [hread] at ht
    cases ht
  | ok u =>
    have hrange := inRange_of_toTransaction hconverted hread
    have hu := Except.ok.inj (hread.symm.trans (toTransaction_of_inRange hconverted ha hrange))
    have hvalid := h.valid_asTransaction hconverted hpos.le hrange
    rw [hread] at ht
    cases ht
    change u.applyPrecision.2.Materialised r.minor ∧ u.applyPrecision.2.amount.isFinite = true
    rw [← hu] at hvalid
    have hresolved : u.resolvedAmount = r.minor := by
      rw [hu,hminor]
      change (if 0 < r.preciseAmount.getD 0 then r.preciseAmount.getD 0 else _) = _
      rw [ha,getD_some,if_pos (hminor ▸ hpos)]
    rw [applyPrecision_of_valid hvalid,hresolved]
    have hm := materialised_materialise (validTerms_of_valid hvalid) r.minor
    refine ⟨hm,?_⟩
    rw [hm.amount]
    have hprecision : (u.materialise r.minor).precision = ofInt r.precision := by
      rw [hu]
      exact h.orOne
    rw [hprecision]
    exact hrange

theorem applyPrecision_scale (ha : t.preciseAmount = some a) (ho : t.precision.orOne = t.precision) :
    (∃ b, t.applyPrecision.2.preciseAmount = some b ∧ (0 < a → b = a)) ∧ t.applyPrecision.2.precision = t.precision := by
  cases hv : t.validateMonetaryFields with
  | error e =>
    rw [applyPrecision_of_invalid hv]
    exact ⟨⟨a,ha,fun _ => rfl⟩,rfl⟩
  | ok =>
    rw [applyPrecision_of_valid hv]
    refine ⟨⟨_,rfl,fun hpos => ?_⟩,ho⟩
    rw [resolvedAmount,ha,getD_some,if_pos hpos]

theorem RejectedAs.sound {i : Row} (h : RejectedAs t r) (hc : CopyOf t i) (hi : i.Sound) :
    r.Sound ∧ r.status = .rejected ∧ r.transactionID = t.transactionID ∧ r.parentTransaction = i.transactionID ∧
      r.controls.parentKind = t.parentKind ∧ r.reference = i.reference ++ "_q" ∧
      r.controls.queuedParent = i.controls.queuedParent ∧ r.controls.inflight = t.inflight := by
  obtain ⟨a,ha⟩ := hi.amount
  have hone : t.precision.orOne = t.precision := hc.precision ▸ hi.orOne
  obtain ⟨-,hscale⟩ := applyPrecision_scale (t := { t with status := .rejected }) (hc.preciseAmount.trans ha) hone
  obtain ⟨amount,text,minor,precision,hframe⟩ := applyPrecision_frame { t with status := .rejected }
  obtain ⟨b,p,hb,hp,-,hhigh,rfl⟩ := h.columns
  rw [hscale] at hp
  rw [hframe]
  have hpi : p = i.precision := some.inj (hp.symm.trans ((congrArg toInt? hc.precision).trans hi.integral))
  subst hpi
  refine ⟨⟨rfl,hi.scale,hi.range,hi.integral,⟨b,rfl⟩,?_,fun _ hn => absurd rfl hn,fun hn => absurd rfl hn,
    fun hold => (by cases hold),?_⟩,rfl,rfl,hc.parent,rfl,hc.reference,hc.queuedParent,rfl⟩
  all_goals rintro (hs | hs) <;> cases hs

end LedgerForge
