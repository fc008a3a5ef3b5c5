import LedgerForge.Identities.Tokens

/-! # Marks and tokens of an identity

Everything that is read from the marks comes down to the boolean of a name in the stored metadata. A field that holds a token
gives back what was supplied, and a field that does not cannot be detokenized into itself.
-/

namespace LedgerForge.Identities

open List Prod MetaValue

open Metadata (Object mergeMetadata)

variable {tk : Tokenizer} {record : Record} {stored : StoredIdentity} {metaData : Option Object} {field : TextField}
  {fieldName : String}

theorem convert_name (field : TextField) : convertToStructFieldName field.name = field.name := by cases field <;> decide +kernel

theorem name_injective : Function.Injective TextField.name := by
  intro a b
  cases a <;> cases b <;> decide

theorem ofName_name (field : TextField) : TextField.ofName field.name = some field := by cases field <;> decide +kernel

theorem fieldByName_name (identity : Identity) (field : TextField) :
    identity.fieldByName field.name = some (identity.fields field) := by simp [Identity.fieldByName,ofName_name]

variable {entries : List (String × GoValue)} {key : String}

theorem lookup_eq_none_of_not_mem (h : key ∉ entries.map fst) :
    entries.lookup key = none := by
  rw [lookup_eq_none_iff]
  intro entry hentry
  exact bne_iff_ne.mpr fun he => h (he ▸ mem_map_of_mem hentry)

theorem mem_boolEntries {b : Bool} :
    (key,b) ∈ boolEntries entries ↔ boolOf (entries.lookup key) = some b := by
  simp only [boolEntries,mem_filterMap,mem_dedup,Option.map_eq_some_iff,mk.injEq]
  constructor
  · rintro ⟨key',-,b',hb,rfl,rfl⟩
    exact hb
  · intro hb
    refine ⟨key,?_,b,hb,rfl,rfl⟩
    by_contra hmem
    rw [lookup_eq_none_of_not_mem hmem] at hb
    cases hb

theorem nodup_boolEntries (entries : List (String × GoValue)) : ((boolEntries entries).map fst).Nodup := by
  refine List.Nodup.sublist ?_ (nodup_dedup (entries.map fst))
  unfold boolEntries
  generalize (entries.map fst).dedup = keys
  induction keys with
  | nil => simp
  | cons key keys ih =>
    rw [filterMap_cons]
    split
    · exact ih.cons key
    rename_i entry hentry
    obtain ⟨b,-,hkey⟩ := Option.map_eq_some_iff.mp hentry
    rw [← hkey]
    exact ih.cons_cons key

theorem lookup_eq_some_iff {α : Type} {entries : List (String × α)} (h : (entries.map fst).Nodup) {a : α} :
    entries.lookup key = some a ↔ (key,a) ∈ entries := by
  induction entries with
  | nil => simp
  | cons entry rest ih =>
    obtain ⟨key',a'⟩ := entry
    rw [map_cons,nodup_cons] at h
    by_cases hkey : key = key'
    · subst hkey
      rw [lookup_cons_self,mem_cons,mk.injEq,Option.some.injEq]
      constructor
      · rintro rfl
        exact .inl ⟨rfl,rfl⟩
      · rintro (⟨-,rfl⟩ | hmem)
        · rfl
        · exact absurd (mem_map_of_mem hmem) h.1
    · rw [lookup_cons,beq_eq_false_iff_ne.mpr hkey,mem_cons,mk.injEq]
      simp only [hkey,false_and,false_or]
      exact ih h.2

theorem lookup_boolEntries (entries : List (String × GoValue)) (key : String) :
    (boolEntries entries).lookup key = boolOf (entries.lookup key) := by
  refine Option.ext fun b => ?_
  rw [lookup_eq_some_iff (nodup_boolEntries entries),mem_boolEntries]

def markEntry (metaData : Option Object) : Option GoValue := (metaData.getD fun _ => none) "tokenized_fields"

theorem markOf_map (h : markEntry metaData = some (.map entries)) (name : String) :
    markOf metaData name = boolOf (entries.lookup name) := by
  have hmarks : markOf metaData name = (boolEntries entries).lookup name := by
    unfold markOf
    rw [show (metaData.getD fun _ => none) "tokenized_fields" = some (.map entries) from h]
    rfl
  rw [hmarks,lookup_boolEntries]

theorem markOf_of_not_map (metaData : Option Object) (h : ∀ entries, markEntry metaData ≠ some (.map entries)) (name : String) : markOf metaData name = none := by
  unfold markOf
  cases hentry : (metaData.getD fun _ => none) "tokenized_fields" with
  | none => rfl
  | some value =>
    cases value with
    | map entries => exact absurd hentry (h entries)
    | _ => rfl

theorem markOf_congr {metaData' : Option Object} (h : markEntry metaData = markEntry metaData') : markOf metaData = markOf metaData' := by
  unfold markOf
  rw [show (metaData.getD fun _ => none) "tokenized_fields" = (metaData'.getD fun _ => none) "tokenized_fields" from h]

theorem load_marks (stored : StoredIdentity) {entry : String → Option MetaValue} (h : stored.load.metaData = some entry) :
    entry "tokenized_fields" = (markEntry stored.metaData).map .read := by
  cases hmeta : stored.metaData with
  | none => simp [StoredIdentity.load,hmeta] at h
  | some object =>
    simp only [StoredIdentity.load,hmeta,Option.map_some,Option.some.injEq] at h
    rw [← h]
    rfl

theorem isFieldTokenized_load (stored : StoredIdentity) (fieldName : String) : stored.load.isFieldTokenized fieldName =
    ((markOf stored.metaData (convertToStructFieldName fieldName)).or (markOf stored.metaData fieldName)).getD false := by
  unfold Identity.isFieldTokenized
  cases hload : stored.load.metaData with
  | none =>
    have hmeta : stored.metaData = none := by simpa [StoredIdentity.load] using hload
    rw [hmeta]
    rfl
  | some entry =>
    simp only [load_marks stored hload]
    cases hentry : markEntry stored.metaData with
    | none => simp [markOf_of_not_map stored.metaData (fun _ => by rw [hentry]; nofun)]
    | some value =>
      cases value with
      | map entries =>
        simp only [Option.map_some,markOf_map hentry]
        cases entries.lookup (convertToStructFieldName fieldName) with
        | none => cases entries.lookup fieldName with
          | none => rfl
          | some v => cases v <;> rfl
        | some v => cases v with
          | bool b => rfl
          | _ => cases entries.lookup fieldName with
            | none => rfl
            | some v => cases v <;> rfl
      | _ => simp [markOf_of_not_map stored.metaData (fun _ => by rw [hentry]; nofun)]

theorem isFieldTokenized_name (stored : StoredIdentity) (field : TextField) :
    stored.load.isFieldTokenized field.name = true ↔ markOf stored.metaData field.name = some true := by
  rw [isFieldTokenized_load,convert_name]
  cases markOf stored.metaData field.name <;> simp

theorem mem_markedFields (stored : StoredIdentity) {name : String} :
    name ∈ stored.load.markedFields ↔ markOf stored.metaData name = some true := by
  unfold Identity.markedFields
  cases hload : stored.load.metaData with
  | none =>
    have hmeta : stored.metaData = none := by simpa [StoredIdentity.load] using hload
    rw [hmeta]
    simp [markOf,marks]
  | some entry =>
    simp only [load_marks stored hload]
    cases hentry : markEntry stored.metaData with
    | none => simp [marks,markOf_of_not_map stored.metaData (fun _ => by rw [hentry]; nofun)]
    | some value =>
      cases value with
      | map entries =>
        simp only [Option.map_some,marks,markOf_map hentry,← mem_boolEntries,mem_map,mem_filter]
        constructor
        · rintro ⟨⟨name',b⟩,⟨hmem,hb⟩,rfl⟩
          dsimp only at hb
          rwa [hb] at hmem
        · intro hmem
          exact ⟨(name,true),⟨hmem,rfl⟩,rfl⟩
      | _ => simp [marks,markOf_of_not_map stored.metaData (fun _ => by rw [hentry]; nofun)]

theorem detokenizeFields_ok {identity : Identity} {names : List String} {values : List (String × String)}
    (h : identity.detokenizeFields tk names = .ok values) :
    values.map fst = names ∧ ∀ value ∈ values, identity.detokenizeIdentityField tk value.1 = .ok value.2 := by
  induction names generalizing values with
  | nil =>
    cases h
    exact ⟨rfl,nofun⟩
  | cons name rest ih =>
    obtain ⟨value,hvalue,h⟩ := bind_ok h
    obtain ⟨values',hvalues,h⟩ := bind_ok h
    cases h
    obtain ⟨hnames,hall⟩ := ih hvalues
    exact ⟨by rw [map_cons,hnames],forall_mem_cons.mpr ⟨hvalue,hall⟩⟩

theorem exists_detokenizeFields {identity : Identity} {names : List String}
    (h : ∀ name ∈ names, ∃ value, identity.detokenizeIdentityField tk name = .ok value) :
    ∃ values, identity.detokenizeFields tk names = .ok values := by
  induction names with
  | nil => exact ⟨[],rfl⟩
  | cons name rest ih =>
    obtain ⟨⟨value,hvalue⟩,hrest⟩ := forall_mem_cons.mp h
    obtain ⟨values,hvalues⟩ := ih hrest
    refine ⟨(name,value) :: values,?_⟩
    rw [Identity.detokenizeFields,hvalue]
    rw [hvalues]
    rfl

theorem toOption_eq_some {ε α : Type} {x : Except ε α} {a : α} : x.toOption = some a ↔ x = .ok a := by
  cases x with
  | error e => exact ⟨nofun,nofun⟩
  | ok b => exact ⟨fun h => congrArg Except.ok (Option.some.inj h),fun h => congrArg some (Except.ok.inj h)⟩

theorem detokenizeValue_ok {token value : String} : tk.detokenizeValue token = .ok value ↔ tk.detokenize token = .ok value := by
  unfold Tokenizer.detokenizeValue
  cases tk.detokenize token <;> simp [Except.mapError]

/-- What a field holds, by how many times it has been replaced. -/
structure Layered (tk : Tokenizer) (record : Record) : Prop where
  plain : ∀ field, record.layers field = 0 → record.stored.fields field = record.supplied field
  token : ∀ field, record.layers field = 1 → tk.detokenize (record.stored.fields field) = .ok (record.supplied field)
  tokenizable : ∀ field, 0 < record.layers field → field ∈ tokenizableFields

/-- Tokens and marks that agree are all that consistency needs. -/
theorem Layered.consistent_iff (h : Layered tk record) :
    Consistent tk record ↔ (∀ field, record.layers field ≤ 1) ∧ Agree record.stored.metaData record.layers := by
  constructor
  · intro hr
    refine ⟨hr.once,fun field hfield => ?_,fun name hname => ?_⟩
    · rw [← hr.marked field hfield,isFieldTokenized_name]
    · obtain ⟨values,hvalues,-,hsupplied⟩ := hr.identity
      obtain ⟨hnames,hall⟩ := detokenizeFields_ok (toOption_eq_some.mp hvalues)
      have hmem : name ∈ values.map fst := by
        rw [hnames]
        exact (mem_markedFields record.stored).mpr hname
      obtain ⟨value,hvalue,rfl⟩ := mem_map.mp hmem
      obtain ⟨field,hfield,hsame⟩ := hsupplied value hvalue
      refine ⟨field,hfield,Nat.pos_of_ne_zero fun hplain => ?_⟩
      -- A field that holds no token would have been detokenized into itself.
      have hdetokenized := hall value hvalue
      simp only [Identity.detokenizeIdentityField,hfield,fieldByName_name] at hdetokenized
      split at hdetokenized
      · cases hdetokenized
      · refine tk.detokenize_ne _ _ (detokenizeValue_ok.mp hdetokenized) ?_
        exact hsame.trans (h.plain field hplain).symm
  · rintro ⟨honce,hagree⟩
    have hfield : ∀ field ∈ tokenizableFields, 0 < record.layers field → ∀ fieldName,
        convertToStructFieldName fieldName = field.name →
        record.stored.load.detokenizeIdentityField tk fieldName = .ok (record.supplied field) := by
      intro field htokenizable hlayer fieldName hname
      have hmarked := (isFieldTokenized_name record.stored field).mpr ((hagree.marked field htokenizable).mpr hlayer)
      simp only [Identity.detokenizeIdentityField,hname,fieldByName_name]
      rw [if_neg fun hnot => by simp [hmarked] at hnot]
      exact detokenizeValue_ok.mpr (h.token field (le_antisymm (honce field) hlayer))
    have hmarked : ∀ name ∈ record.stored.load.markedFields, ∃ field : TextField, convertToStructFieldName name = field.name ∧
        record.stored.load.detokenizeIdentityField tk name = .ok (record.supplied field) := by
      intro name hname
      obtain ⟨field,hconvert,hlayer⟩ := hagree.only name ((mem_markedFields record.stored).mp hname)
      exact ⟨field,hconvert,hfield field (h.tokenizable field hlayer) hlayer name hconvert⟩
    have hexists : ∀ name ∈ record.stored.load.markedFields, ∃ value, record.stored.load.detokenizeIdentityField tk name = .ok value :=
      fun name hname => (hmarked name hname).elim fun field hf => ⟨_,hf.2⟩
    obtain ⟨values,hvalues⟩ := exists_detokenizeFields hexists
    obtain ⟨hnames,hall⟩ := detokenizeFields_ok hvalues
    refine ⟨fun field hf => ?_,honce,fun field hf hl name hn => toOption_eq_some.mpr (hfield field hf hl name hn),
      values,toOption_eq_some.mpr hvalues,fun field hf hl => ?_,fun value hvalue => ?_⟩
    · rw [isFieldTokenized_name,hagree.marked field hf]
    · have hmem : field.name ∈ values.map fst := by
        rw [hnames]
        exact (mem_markedFields record.stored).mpr ((hagree.marked field hf).mpr hl)
      obtain ⟨value,hvalue,hname⟩ := mem_map.mp hmem
      have hsame := (hall value hvalue).symm.trans (hfield field hf hl value.1 (by rw [hname,convert_name]))
      rw [← hname,← Except.ok.inj hsame]
      exact hvalue
    · have hmem : value.1 ∈ record.stored.load.markedFields := hnames ▸ mem_map_of_mem hvalue
      obtain ⟨field,hconvert,hdetokenized⟩ := hmarked value.1 hmem
      exact ⟨field,hconvert,Except.ok.inj ((hall value hvalue).symm.trans hdetokenized)⟩

theorem getDetokenizedIdentity_load (tk : Tokenizer) (stored : StoredIdentity) :
    ∃ identity, stored.load.getDetokenizedIdentity tk = .ok identity ∧ identity.fields = stored.fields := by
  unfold Identity.getDetokenizedIdentity
  cases hload : stored.load.metaData with
  | none => exact ⟨_,rfl,rfl⟩
  | some entry =>
    simp only [load_marks stored hload]
    cases markEntry stored.metaData with
    | none => exact ⟨_,rfl,rfl⟩
    | some value => exact ⟨_,rfl,rfl⟩

theorem Layered.faithful_iff (h : Layered tk record) : Faithful tk record ↔ Consistent tk record ∧ ∀ field, record.layers field = 0 := by
  obtain ⟨identity,hidentity,hfields⟩ := getDetokenizedIdentity_load tk record.stored
  constructor
  · intro hr
    refine ⟨hr.toConsistent,fun field => ?_⟩
    obtain ⟨identity',hidentity',hsupplied⟩ := hr.detokenized
    cases (toOption_eq_some.mp hidentity').symm.trans hidentity
    by_contra hlayer
    have hone : record.layers field = 1 := le_antisymm (hr.once field) (Nat.one_le_iff_ne_zero.mpr hlayer)
    exact tk.detokenize_ne _ _ (h.token field hone) (congrFun (hsupplied.symm.trans hfields) field)
  · rintro ⟨hconsistent,hplain⟩
    exact ⟨hconsistent,identity,toOption_eq_some.mpr hidentity,hfields.trans (funext fun field => h.plain field (hplain field))⟩

end LedgerForge.Identities
