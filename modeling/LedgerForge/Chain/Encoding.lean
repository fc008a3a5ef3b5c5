import LedgerForge.Library.Framing

/-! # Canonical encodings of the hash chain

A sealed row is hashed together with the hash before it. The second version delimits every field by its length
and names its own version; the third contains the second and adds more fields; the first joins fields by a bar.
-/

namespace LedgerForge.Chain

open Framing Option

/-- How timestamps are ordered and printed as UTC. A printed timestamp is never empty. -/
structure Clock where
  Time : Type
  decEq : DecidableEq Time
  before : Time → Time → Bool
  text : Time → Bytes
  nonempty : ∀ t, text t ≠ []

attribute [instance] Clock.decEq

/-- The fields of a transaction that the chain seals. -/
structure ChainRow (clock : Clock) where
  historicalRate : Bytes
  overdraftLimit : Bytes
  queueAction : Bytes
  executionControls : Bytes
  scheduledFor : Option clock.Time
  id : Bytes
  precision : Bytes
  rate : Bytes
  parentTransaction : Bytes
  effectiveDate : Option clock.Time
  transactionID : Bytes
  source : Bytes
  destination : Bytes
  amount : Bytes
  preciseAmount : Bytes
  currency : Bytes
  status : Bytes
  reference : Bytes
  createdAt : clock.Time
deriving DecidableEq

def ascii (s : String) : Bytes := s.toList.map fun c => UInt8.ofNat c.toNat

variable {clock : Clock}

def optionalText (t : Option clock.Time) : Bytes := t.elim [] clock.text

def buffered (b : Bytes) : Option Bytes := if b.length < 2^63 then some b else none

def canonicalChainV1 (prevHash : Bytes) (r : ChainRow clock) : Bytes :=
  (ascii "|").intercalate [prevHash,r.transactionID,r.source,r.destination,r.amount,r.preciseAmount,r.currency,r.status,
    r.reference,clock.text r.createdAt]

def fieldsV2 (prevHash : Bytes) (r : ChainRow clock) : List Bytes :=
  [ascii "ledgerforge.transaction-chain",ascii "2",prevHash,r.id,r.transactionID,r.source,r.destination,r.amount,
    r.preciseAmount,r.precision,r.rate,r.currency,r.status,r.reference,r.parentTransaction,optionalText r.effectiveDate,
    clock.text r.createdAt]

def canonicalChainV2 (prevHash : Bytes) (r : ChainRow clock) : Option Bytes := buffered (frames 8 (fieldsV2 prevHash r))

def fieldsV3 (v2 : Bytes) (r : ChainRow clock) : List Bytes :=
  [ascii "ledgerforge.transaction-chain",ascii "3",v2,r.overdraftLimit,r.queueAction,r.executionControls,
    optionalText r.scheduledFor,r.historicalRate]

def canonicalChainV3 (prevHash : Bytes) (r : ChainRow clock) : Option Bytes :=
  (canonicalChainV2 prevHash r).bind fun v2 => buffered (frames 8 (fieldsV3 v2 r))

/-- Two rows agree in the fields of the second version. -/
structure AgreeV2 (r s : ChainRow clock) : Prop where
  id : r.id = s.id
  transactionID : r.transactionID = s.transactionID
  source : r.source = s.source
  destination : r.destination = s.destination
  amount : r.amount = s.amount
  preciseAmount : r.preciseAmount = s.preciseAmount
  precision : r.precision = s.precision
  rate : r.rate = s.rate
  currency : r.currency = s.currency
  status : r.status = s.status
  reference : r.reference = s.reference
  parentTransaction : r.parentTransaction = s.parentTransaction
  effectiveDate : r.effectiveDate.map clock.text = s.effectiveDate.map clock.text
  createdAt : clock.text r.createdAt = clock.text s.createdAt

/-- Two rows agree in the fields of the third version. -/
structure AgreeV3 (r s : ChainRow clock) : Prop extends AgreeV2 r s where
  overdraftLimit : r.overdraftLimit = s.overdraftLimit
  queueAction : r.queueAction = s.queueAction
  executionControls : r.executionControls = s.executionControls
  scheduledFor : r.scheduledFor.map clock.text = s.scheduledFor.map clock.text
  historicalRate : r.historicalRate = s.historicalRate

theorem optionalText_injective {t u : Option clock.Time} (h : optionalText t = optionalText u) :
    t.map clock.text = u.map clock.text := by
  cases t with
  | none =>
    cases u with
    | none => rfl
    | some u => exact absurd h.symm (clock.nonempty u)
  | some t =>
    cases u with
    | none => exact absurd h (clock.nonempty t)
    | some u => exact congrArg some h

variable {x p q : Bytes} {r s : ChainRow clock}

theorem buffered_eq_some {b : Bytes} (h : buffered b = some x) : b = x ∧ x.length < 2^63 := by
  obtain ⟨hlength,h⟩ := ite_none_right_eq_some.mp h
  cases h
  exact ⟨rfl,hlength⟩

theorem fields_eq {fs gs : List Bytes} (hf : buffered (frames 8 fs) = some x)
    (hg : buffered (frames 8 gs) = some x) : fs = gs := by
  obtain ⟨hfx,hbound⟩ := buffered_eq_some hf
  obtain ⟨hgx,-⟩ := buffered_eq_some hg
  have hsmall : ∀ {l : List Bytes}, frames 8 l = x → ∀ f ∈ l, f.length < 256^8 := by
    rintro l rfl f hmem
    have := length_le_frames (k := 8) hmem
    omega
  exact frames_injective (by decide) (hsmall hfx) (hsmall hgx) (hfx.trans hgx.symm)

theorem canonicalChainV2_injective (hr : canonicalChainV2 p r = some x)
    (hs : canonicalChainV2 q s = some x) : p = q ∧ AgreeV2 r s := by
  have hfields := fields_eq hr hs
  simp only [fieldsV2,List.cons.injEq,true_and,and_true] at hfields
  obtain ⟨hprev,hid,htxn,hsource,hdest,hamount,hprecise,hprecision,hrate,hcurrency,hstatus,href,hparent,heff,hcreated⟩ :=
    hfields
  exact ⟨hprev,hid,htxn,hsource,hdest,hamount,hprecise,hprecision,hrate,hcurrency,hstatus,href,hparent,
    optionalText_injective heff,hcreated⟩

theorem canonicalChainV3_injective (hr : canonicalChainV3 p r = some x)
    (hs : canonicalChainV3 q s = some x) : p = q ∧ AgreeV3 r s := by
  obtain ⟨v,hv,hr⟩ := bind_eq_some_iff.mp hr
  obtain ⟨w,hw,hs⟩ := bind_eq_some_iff.mp hs
  have hfields := fields_eq hr hs
  simp only [fieldsV3,List.cons.injEq,true_and,and_true] at hfields
  obtain ⟨rfl,hlimit,haction,hcontrols,hscheduled,hrate⟩ := hfields
  obtain ⟨hprev,hagree⟩ := canonicalChainV2_injective hv hw
  exact ⟨hprev,⟨hagree,hlimit,haction,hcontrols,optionalText_injective hscheduled,hrate⟩⟩

def isHexDigit (b : UInt8) : Bool := (48 ≤ b && b ≤ 57) || (97 ≤ b && b ≤ 102)

def HexDigest (h : Bytes) : Prop := h.length = 64 ∧ ∀ b ∈ h, isHexDigit b = true

theorem head?_canonicalChainV1 (hp : HexDigest p) (r : ChainRow clock) :
    ∃ b, (canonicalChainV1 p r).head? = some b ∧ isHexDigit b = true := by
  obtain ⟨hlength,hdigits⟩ := hp
  cases p with
  | nil => cases hlength
  | cons b p => exact ⟨b,rfl,hdigits b List.mem_cons_self⟩

theorem head?_frames (fs : List Bytes) : (frames 8 (ascii "ledgerforge.transaction-chain" :: fs)).head? = some 0 := rfl

theorem head?_canonicalChainV2 (h : canonicalChainV2 p r = some x) : x.head? = some 0 := by
  rw [← (buffered_eq_some h).1]
  exact head?_frames _

theorem head?_canonicalChainV3 (h : canonicalChainV3 p r = some x) : x.head? = some 0 := by
  obtain ⟨v,-,h⟩ := bind_eq_some_iff.mp h
  rw [← (buffered_eq_some h).1]
  exact head?_frames _

theorem canonicalChainV2_ne_V3 (hr : canonicalChainV2 p r = some x) :
    canonicalChainV3 q s ≠ some x := by
  intro hs
  obtain ⟨v,-,hs⟩ := bind_eq_some_iff.mp hs
  have hfields := fields_eq hr hs
  simp only [fieldsV2,fieldsV3,List.cons.injEq] at hfields
  exact absurd hfields.2.1 (by decide)

theorem canonicalChainV1_ne (hp : HexDigest p) (hx : x.head? = some 0) :
    canonicalChainV1 p r ≠ x := by
  rintro rfl
  obtain ⟨b,hb,hdigit⟩ := head?_canonicalChainV1 hp r
  rw [hx] at hb
  cases hb
  cases hdigit

/-- The delimited encodings determine the hash before and the covered fields, and no two versions meet. -/
theorem canonical_encodings_unambiguous (clock : Clock) (p q : Bytes) (r s : ChainRow clock) :
    (∀ x, canonicalChainV2 p r = some x → canonicalChainV2 q s = some x → p = q ∧ AgreeV2 r s) ∧
    (∀ x, canonicalChainV3 p r = some x → canonicalChainV3 q s = some x → p = q ∧ AgreeV3 r s) ∧
    (∀ x, canonicalChainV2 p r = some x → canonicalChainV3 q s ≠ some x) ∧
    (HexDigest p → canonicalChainV2 q s ≠ some (canonicalChainV1 p r) ∧
      canonicalChainV3 q s ≠ some (canonicalChainV1 p r)) :=
  ⟨fun _ => canonicalChainV2_injective,fun _ => canonicalChainV3_injective,fun _ => canonicalChainV2_ne_V3,
    fun hp => ⟨fun h => canonicalChainV1_ne hp (head?_canonicalChainV2 h) rfl,
      fun h => canonicalChainV1_ne hp (head?_canonicalChainV3 h) rfl⟩⟩

end LedgerForge.Chain
