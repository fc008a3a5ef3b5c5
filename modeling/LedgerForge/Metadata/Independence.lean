import LedgerForge.Metadata.Controls

/-! # Controls come back as they were written

Whatever metadata a row has, and whatever is written to it later, reading the row returns the controls that were stored
with it and never their private key.
-/

namespace LedgerForge.Metadata

open GoValue Json List MetadataTables FieldCodec Transaction Option

variable {time : TimeText}

theorem marshal_one : (GoValue.number (Float64.ofInt 1)).marshal = .ok (.number 1) := by
  have hvalue : (⟨1,0⟩ : Decimal).value = ((1 : ℤ)) := by decide +kernel
  have hone := Float64.ofRat_value ⟨1,0⟩ (by decide +kernel)
  rw [hvalue] at hone
  rw [marshal,Float64.ofInt,hone,marshalDouble,hvalue]
  rfl

theorem readInt_one : readInt (some (.number 1)) = .ok 1 := by
  simp [readInt,readField]

theorem lookup_select (entries : Entries) (keys : List String) (key : String) :
    (keys.filterMap fun k => (entries.lookup k).map fun value => (k,value)).lookup key =
      if key ∈ keys then entries.lookup key else none := by
  induction keys with
  | nil => rfl
  | cons k keys ih =>
    rw [filterMap_cons]
    by_cases hkey : key = k
    · subst hkey
      cases hv : entries.lookup key with
      | none => simp [hv,ih]
      | some v => simp
    · cases hv : entries.lookup k with
      | none => simp [ih,hkey]
      | some v => simp [lookup_cons,ih,hkey,beq_eq_false_iff_ne.mpr hkey]

namespace ExecutionControls

variable {c : ExecutionControls time} {entries : Entries} {fields : List (String × Json)}

theorem lookup_version (hv : c.economicVersion = 1) (h : c.entries = .ok entries) :
    entries.lookup "economic_version" = some (.number (.ofInt 1)) := by
  obtain ⟨reserved,-,h⟩ := bind_ok h
  obtain ⟨groupIDs,-,h⟩ := bind_ok h
  obtain ⟨sources,-,h⟩ := bind_ok h
  obtain ⟨destinations,-,h⟩ := bind_ok h
  obtain ⟨expiry,-,h⟩ := bind_ok h
  obtain ⟨commit,-,h⟩ := bind_ok h
  cases h
  simp [lookup_cons,hv]

theorem readInt_version (hv : c.economicVersion = 1) (h : c.entries = .ok entries)
    (hfields : marshalEntries entries = .ok fields) : readInt (fields.lookup "economic_version") = .ok 1 := by
  obtain ⟨j,hj,hm⟩ := lookup_marshalEntries hfields (lookup_version hv h)
  rw [marshal_one] at hm
  cases hm
  rw [hj,readInt_one]

theorem readCurrent_entries (hv : c.economicVersion = 1) (h : c.entries = .ok entries)
    (hfields : marshalEntries entries = .ok fields) : readCurrent time fields = .ok c := by
  have hversion := readInt_version hv h hfields
  obtain ⟨reserved,hreserved,h⟩ := bind_ok h
  obtain ⟨groupIDs,hgroupIDs,h⟩ := bind_ok h
  obtain ⟨sources,hsources,h⟩ := bind_ok h
  obtain ⟨destinations,hdestinations,h⟩ := bind_ok h
  obtain ⟨expiry,hexpiry,h⟩ := bind_ok h
  obtain ⟨commit,hcommit,h⟩ := bind_ok h
  cases h
  have hbool : ∀ {key b}, List.lookup key _ = some (GoValue.bool b) → bool.get fields key = .ok b :=
    fun hkey => bool.get_of_lookup hfields hkey rfl
  have hstring : ∀ {key s}, List.lookup key _ = some (GoValue.string s) → string.get fields key = .ok s :=
    fun hkey => string.get_of_lookup hfields hkey rfl
  rw [readCurrent,hversion,map.get_of_lookup hfields (by simp) hreserved,
    @hbool "allow_overdraft" c.allowOverdraft (by simp [lookup_cons]),
    @hbool "inflight" c.inflight (by simp [lookup_cons]),
    @hbool "atomic" c.atomic (by simp [lookup_cons]),
    @hbool "skip_queue" c.skipQueue (by simp [lookup_cons]),
    @hbool "skip_balance_update" c.skipBalanceUpdate (by simp [lookup_cons]),
    @hstring "parent_kind" c.parentKind (by simp [lookup_cons]),
    @hstring "queued_parent" c.queuedParent (by simp [lookup_cons]),
    @hstring "queue_lane" c.queueLane (by simp [lookup_cons]),
    @hstring "shadow_for" c.shadowFor (by simp [lookup_cons]),
    get_of_lookup _ hfields (by simp [lookup_cons]) hgroupIDs,
    get_of_lookup _ hfields (by simp [lookup_cons]) hsources,
    get_of_lookup _ hfields (by simp [lookup_cons]) hdestinations,
    get_of_lookup _ hfields (by simp [lookup_cons]) hexpiry,
    get_of_lookup _ hfields (by simp [lookup_cons]) hcommit]
  obtain ⟨⟩ := c
  cases hv
  rfl

theorem decode_marshal {j : Json} (hv : c.economicVersion = 1) (h : c.marshal = .ok j) :
    ∃ raw, j.unmarshal = .ok raw ∧ raw.marshal = .ok j ∧ decodeExecutionControls time j = .ok c := by
  obtain ⟨entries,hentries,hj⟩ := bind_ok h
  refine ⟨.map entries,unmarshal_marshal hj,hj,?_⟩
  obtain ⟨fields,hfields,rfl⟩ := map_ok hj
  have hversion := readInt_version hv hentries hfields
  have hdecode : decodeExecutionControls time (.object fields) =
      readInt (fields.lookup "economic_version") >>= fun version =>
        if version ≠ 0 then readCurrent time fields else do return readLegacy time (← unmarshalFields fields) := rfl
  rw [hdecode,hversion]
  exact readCurrent_entries hv hentries hfields

theorem apply_executionControls (t t' : Transaction time) (h : t.executionControls.apply t' = t') :
    t'.executionControls = t.executionControls := by
  rw [← h]
  simp only [executionControls,apply,executionMetadata,isSome_some,if_true,getD_some]
  congr 2
  apply filterMap_congr
  intro key hkey
  rw [lookup_select,if_pos hkey]

end ExecutionControls

def ReadableMetadata : Option Json → Prop
  | none | some .null => True
  | some (.object fields) => ∀ field ∈ fields, field.2.Readable
  | _ => False

def Keeps (db : MetadataTables) (id : String) (controls : Json) : Prop :=
  ∃ row, db.findRow id = some row ∧ row.executionControls = some controls ∧ ReadableMetadata row.metaData

theorem StoredRow.patch_transactionID (id : String) (patch : List (String × Json)) (row : StoredRow) :
    (row.patch id patch).transactionID = row.transactionID := by
  unfold StoredRow.patch
  split
  · split <;> rfl
  · rfl

theorem StoredRow.patch_controls (id : String) (patch : List (String × Json)) (row : StoredRow) :
    (row.patch id patch).executionControls = row.executionControls := by
  unfold StoredRow.patch
  split
  · split <;> rfl
  · rfl

theorem StoredRow.patch_readable {id : String} {patch : List (String × Json)} {row : StoredRow}
    (hpatch : ∀ field ∈ patch, field.2.Readable) (h : ReadableMetadata row.metaData) :
    ReadableMetadata (row.patch id patch).metaData := by
  unfold StoredRow.patch
  split
  · split
    · next fields hfields =>
      rw [hfields] at h
      exact forall_mem_merge h hpatch
    · exact forall_mem_merge (fun _ h => absurd h not_mem_nil) hpatch
  · exact h

variable {db db' : MetadataTables} {lower : String → String} {id : String} {controls : Json}

variable {t : Transaction time}

theorem recordTransaction_ok (h : db.recordTransaction t = .ok db') :
    ∃ row insertions, db' = ⟨db.transactions ++ [row],insertions⟩ ∧ db.findRow t.transactionID = none ∧
      row.transactionID = t.transactionID ∧ ReadableMetadata row.metaData ∧
      ∃ j, row.executionControls = some j ∧ t.executionControls.marshal = .ok j := by
  obtain ⟨metaDataJSON,hmeta,h⟩ := bind_ok h
  obtain ⟨controlsJSON,hcontrols,h⟩ := bind_ok h
  split at h
  · cases h
  next hnew =>
  cases h
  rw [Bool.or_eq_true,not_or,isSome_iff_ne_none,not_not] at hnew
  refine ⟨_,_,rfl,hnew.2,rfl,?_,controlsJSON,rfl,hcontrols⟩
  cases hm : t.metaData with
  | none =>
    rw [hm] at hmeta
    cases hmeta
    trivial
  | some entries =>
    rw [hm] at hmeta
    obtain ⟨fields,hfields,rfl⟩ := map_ok hmeta
    exact readable_of_marshalEntries hfields

theorem updateMetadata_ok {entityID : String} {newMetadata : Entries}
    (h : db.updateMetadata lower entityID newMetadata = .ok db') :
    db' = db ∨ ∃ patch, (∀ field ∈ patch, field.2.Readable) ∧
      db' = { db with transactions := db.transactions.map (StoredRow.patch entityID patch) } := by
  unfold updateMetadata at h
  split at h
  · obtain ⟨_,-,h⟩ := bind_ok h
    obtain ⟨-,h⟩ := ok_of_check h
    obtain ⟨patch,hpatch,h⟩ := bind_ok h
    split at h
    · cases h
      exact .inr ⟨patch,readable_of_marshalEntries hpatch,rfl⟩
    · cases h
  · cases h
    exact .inl rfl

theorem Keeps.step (h : Keeps db id controls) (e : MetadataEvent time) : Keeps (db.step lower e) id controls := by
  obtain ⟨row,hrow,hcontrols,hmeta⟩ := h
  cases e with
  | record t =>
    cases hr : db.recordTransaction t with
    | error => 
      simp only [MetadataTables.step,hr]
      exact ⟨row,hrow,hcontrols,hmeta⟩
    | ok db' =>
      obtain ⟨new,insertions,rfl,-⟩ := recordTransaction_ok hr
      simp only [MetadataTables.step,hr]
      exact ⟨row,Keyed.find_append_of_some hrow,hcontrols,hmeta⟩
  | update entityID newMetadata =>
    cases hr : db.updateMetadata lower entityID newMetadata with
    | error =>
      simp only [MetadataTables.step,hr]
      exact ⟨row,hrow,hcontrols,hmeta⟩
    | ok db' =>
      simp only [MetadataTables.step,hr]
      rcases updateMetadata_ok hr with rfl | ⟨patch,hpatch,rfl⟩
      · exact ⟨row,hrow,hcontrols,hmeta⟩
      refine ⟨row.patch entityID patch,?_,(row.patch_controls entityID patch).trans hcontrols,
        StoredRow.patch_readable hpatch hmeta⟩
      change Keyed.find _ (db.transactions.map _) id = _
      rw [Keyed.find_map _ (StoredRow.patch_transactionID entityID patch)]
      exact congrArg (Option.map _) hrow

theorem Keeps.run (h : Keeps db id controls) (events : List (MetadataEvent time)) :
    Keeps (db.run lower events) id controls := by
  induction events generalizing db with
  | nil => exact h
  | cons e events ih => exact ih (h.step e)

theorem keeps_of_record (h : db.recordTransaction t = .ok db') :
    ∃ j, t.executionControls.marshal = .ok j ∧ Keeps db' t.transactionID j := by
  obtain ⟨row,insertions,rfl,hnew,hid,hmeta,j,hj,hm⟩ := recordTransaction_ok h
  refine ⟨j,hm,row,?_,hj,hmeta⟩
  rw [findRow,Keyed.find] at hnew ⊢
  simp [List.find?_append,hnew,hid]

theorem transactionMetadata_object {row : StoredRow} (hcontrols : row.executionControls = some controls)
    (hmeta : ReadableMetadata row.metaData) : ∃ fields, db.transactionMetadata row = .object (put fields marker controls) ∧
      ∀ field ∈ fields, field.2.Readable := by
  unfold transactionMetadata transactionExecutionControls
  simp only [hcontrols]
  split
  · next fields hfields =>
    rw [hfields] at hmeta
    exact ⟨fields,rfl,hmeta⟩
  · exact ⟨[],rfl,fun _ h => absurd h not_mem_nil⟩
  · exact ⟨[],rfl,fun _ h => absurd h not_mem_nil⟩
  · next j hobject hnull hj =>
    rw [hj] at hmeta
    cases j <;> first | exact absurd hmeta id | exact absurd rfl hnull | exact absurd rfl (hobject _)

theorem Keeps.getTransaction (h : Keeps db id controls)
    (hm : t.executionControls.marshal = .ok controls) : ∃ t', db.getTransaction time id = .ok t' ∧
      t.executionControls.apply t' = t' ∧ (t'.metaData.getD []).lookup marker = none := by
  obtain ⟨row,hrow,hcontrols,hmeta⟩ := h
  obtain ⟨fields,hfields,hreadable⟩ := @transactionMetadata_object db controls row hcontrols hmeta
  obtain ⟨raw,hraw,hmarshal,hdecode⟩ := ExecutionControls.decode_marshal rfl hm
  obtain ⟨entries,hentries⟩ := exists_unmarshalFields (forall_mem_put hreadable (⟨raw,hraw⟩))
  obtain ⟨raw',hlookup,hraw'⟩ := lookup_unmarshalFields hentries (lookup_put fields marker controls)
  obtain rfl : raw = raw' := Except.ok.inj (hraw.symm.trans hraw')
  have hread : ∀ t₀ : Transaction time, ∃ t', decodeTransactionMetadata (.object (put fields marker controls)) t₀ = .ok t' ∧
      t.executionControls.apply t' = t' ∧ (t'.metaData.getD []).lookup marker = none := by
    intro t₀
    refine ⟨{ t.executionControls.apply t₀ with metaData := some (entries.filter fun entry => entry.1 ≠ marker) },?_,rfl,?_⟩
    · simp only [decodeTransactionMetadata,hentries,ok_bind,hlookup,hmarshal,hdecode]
      rfl
    · exact lookup_filter_ne entries marker
  rw [MetadataTables.getTransaction,hrow]
  simp only [hfields]
  exact hread _

theorem executionControls_of_accepted (hlower : ∀ key ∈ reservedKeys, lower key ∈ protectedKeys) {m : Entries}
    (h : validateCustomerTransactionMetadata lower m = .ok ()) (t : Transaction time) :
    { t with metaData := some m }.executionControls = { t with metaData := none }.executionControls := by
  have habsent : ∀ key ∈ reservedKeys, m.lookup key = none := by
    intro key hkey
    rw [lookup_eq_none_iff]
    intro entry hentry
    have hcheck := Results.checkAll_ok.mp h entry hentry
    rw [bne_iff_ne]
    rintro rfl
    rw [if_pos (.inl (hlower _ hkey))] at hcheck
    cases hcheck
  simp only [executionControls,executionMetadata]
  congr 2
  apply filterMap_congr
  intro key hkey
  cases t.reservedMetadata with
  | none => simp [habsent key hkey]
  | some reserved => rfl

theorem getTransaction_recorded (h : db.recordTransaction t = .ok db')
    (events : List (MetadataEvent time)) : ∃ t', (db'.run lower events).getTransaction time t.transactionID = .ok t' ∧
      t.executionControls.apply t' = t' ∧ t'.executionControls = t.executionControls ∧
      (t'.metaData.getD []).lookup marker = none := by
  obtain ⟨j,hm,hkeeps⟩ := keeps_of_record h
  have hrun : Keeps (db'.run lower events) t.transactionID j := hkeeps.run events
  obtain ⟨t',hget,happly,hmarker⟩ := hrun.getTransaction hm
  exact ⟨t',hget,happly,ExecutionControls.apply_executionControls t t' happly,hmarker⟩

/-- Metadata that a customer may write does not enter the controls, and a transaction that is stored with either of two
metadata objects is read with exactly the controls stored, whatever metadata is written later. -/
theorem execution_controls_independent (lower : String → String)
    (hlower : ∀ key ∈ reservedKeys, lower key ∈ protectedKeys) (t : Transaction time) :
    (∀ m₁ m₂, validateCustomerTransactionMetadata lower m₁ = .ok () →
      validateCustomerTransactionMetadata lower m₂ = .ok () →
      { t with metaData := some m₁ }.executionControls = { t with metaData := some m₂ }.executionControls) ∧
    (∀ db₁ db₁' db₂ db₂' m₁ m₂ (events₁ events₂ : List (MetadataEvent time)),
      { t with metaData := m₁ }.executionControls = t.executionControls →
      { t with metaData := m₂ }.executionControls = t.executionControls →
      recordTransaction db₁ { t with metaData := m₁ } = .ok db₁' →
      recordTransaction db₂ { t with metaData := m₂ } = .ok db₂' →
      ∃ t₁ t₂, (db₁'.run lower events₁).getTransaction time t.transactionID = .ok t₁ ∧
        (db₂'.run lower events₂).getTransaction time t.transactionID = .ok t₂ ∧
        t₁.executionControls = t₂.executionControls) ∧
    (∀ db db' (events : List (MetadataEvent time)), recordTransaction db t = .ok db' →
      ∃ t', (db'.run lower events).getTransaction time t.transactionID = .ok t' ∧ t.executionControls.apply t' = t' ∧
        t'.executionControls = t.executionControls ∧ (t'.metaData.getD []).lookup marker = none) := by
  refine ⟨?_,?_,?_⟩
  · intro m₁ m₂ h₁ h₂
    rw [executionControls_of_accepted hlower h₁,executionControls_of_accepted hlower h₂]
  · intro db₁ db₁' db₂ db₂' m₁ m₂ events₁ events₂ hc₁ hc₂ h₁ h₂
    obtain ⟨t₁,hget₁,-,he₁,-⟩ := getTransaction_recorded h₁ events₁
    obtain ⟨t₂,hget₂,-,he₂,-⟩ := getTransaction_recorded h₂ events₂
    exact ⟨t₁,t₂,hget₁,hget₂,(he₁.trans hc₁).trans (he₂.trans hc₂).symm⟩
  · intro db db' events h
    exact getTransaction_recorded h events

def twoTimes : TimeText where
  Time := Bool
  zero := false
  format t := some (if t then "2026-01-02T00:00:00Z" else "0001-01-01T00:00:00Z")
  parse s := if s = "2026-01-02T00:00:00Z" then some true else if s = "0001-01-01T00:00:00Z" then some false else none
  parse_format := by
    intro t s h
    cases t <;> cases h <;> decide +kernel

def notedHold : Transaction twoTimes :=
  { fresh twoTimes with
    transactionID := "txn_1", inflight := true, inflightExpiryDate := true
    metaData := some [("note",.string "rent"),("_provider",.string "stripe")] }

def noteChange : List (MetadataEvent twoTimes) := [.update "txn_1" [("note",.string "paid")]]

theorem noted_hold_read_back : ∃ db', recordTransaction ⟨[],[]⟩ notedHold = .ok db' ∧
    ∃ t', (db'.run String.toLower noteChange).getTransaction twoTimes "txn_1" = .ok t' ∧ t'.inflight = true ∧
      t'.inflightExpiryDate = notedHold.inflightExpiryDate := by
  obtain ⟨db',h⟩ := exists_ok (x := recordTransaction ⟨[],[]⟩ notedHold) (by decide +kernel)
  obtain ⟨t',hget,happly,-⟩ :=
    (execution_controls_independent String.toLower (by decide +kernel) notedHold).2.2 ⟨[],[]⟩ db' noteChange h
  refine ⟨db',h,t',hget,?_⟩
  rw [← happly]
  exact ⟨rfl,rfl⟩

end LedgerForge.Metadata
