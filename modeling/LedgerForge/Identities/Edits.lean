import LedgerForge.Identities.Marks

/-! # Updates and tokenizations

A tokenization keeps tokens and marks in agreement. Whether an update of a client does is decided by the fields and the marks
that it writes.
-/

namespace LedgerForge.Identities

open List Function IdentityTable Option MetaValue EventRuns

open Metadata (Object mergeMetadata)
open IdentityTable

variable {tk : Tokenizer} {s t : IdentityTable} {record : Record} {id fieldName : String} {nonce : tk.Nonce}

theorem lookup_map_bool (marks : List (String × Bool)) (name : String) :
    boolOf ((marks.map fun mark => (mark.1,GoValue.bool mark.2)).lookup name) = marks.lookup name := by
  induction marks with
  | nil => rfl
  | cons mark rest ih =>
    rw [map_cons,lookup_cons,lookup_cons]
    cases name == mark.1 with
    | true => rfl
    | false => exact ih

theorem lookup_put_mark (marks : List (String × Bool)) (key name : String) :
    (marks.filter (·.1 ≠ key) ++ [(key,true)]).lookup name = if name = key then some true else marks.lookup name := by
  rw [lookup_append]
  split_ifs with hname
  · rw [hname,Json.lookup_filter_ne,lookup_cons_self]
    rfl
  have hlast : [(key,true)].lookup name = none := by simp [lookup_cons,beq_eq_false_iff_ne.mpr hname]
  rw [hlast]
  induction marks with
  | nil => rfl
  | cons mark rest ih =>
    by_cases hmark : mark.1 = key
    · rw [filter_cons_of_neg (by simpa using hmark),ih,lookup_cons,beq_eq_false_iff_ne.mpr fun he => hname (he.trans hmark)]
    rw [filter_cons_of_pos (by simpa using hmark),lookup_cons,lookup_cons]
    cases name == mark.1 with
    | true => rfl
    | false => exact ih

def markedMetaData (identity : Identity) (fieldName : String) : Option Object :=
  (identity.markFieldAsTokenized fieldName).metaData.map fun metaData key => (metaData key).map write

theorem markOf_markedMetaData (stored : StoredIdentity) (fields : TextField → String) (fieldName name : String) :
    markOf (markedMetaData ⟨fields,stored.load.metaData⟩ fieldName) name =
      if name = convertToStructFieldName fieldName then some true else markOf stored.metaData name := by
  have hread : ((stored.load.metaData.getD fun _ => none) "tokenized_fields") =
      ((stored.metaData.getD fun _ => none) "tokenized_fields").map .read := by
    cases hmeta : stored.metaData <;> simp [StoredIdentity.load,hmeta]
  have hentry : markEntry (markedMetaData ⟨fields,stored.load.metaData⟩ fieldName) = some (.map (((marks
      (((stored.metaData.getD fun _ => none) "tokenized_fields").map .read)).filter (·.1 ≠ convertToStructFieldName fieldName) ++
        [(convertToStructFieldName fieldName,true)]).map fun mark => (mark.1,GoValue.bool mark.2))) := by
    rw [← hread]
    simp [markEntry,markedMetaData,Identity.markFieldAsTokenized,write]
  rw [markOf_map hentry,lookup_map_bool,lookup_put_mark]
  rfl

variable {field : TextField} {token : String} {metaData : Option Object} {layers : TextField → ℕ}

theorem ne_identityID (h : field ∈ tokenizableFields) : field ≠ .identityID := by
  rintro rfl
  exact absurd h (by decide)

theorem update_fields (stored : StoredIdentity) (hfield : field ≠ .identityID) (htoken : token ≠ "")
    (metaData : Option Object) :
    (stored.update (update stored.fields field token) metaData).fields = update stored.fields field token := by
  funext other
  by_cases hother : other = field
  · subst hother
    simp [StoredIdentity.update,hfield,htoken]
  · simp only [StoredIdentity.update,update_of_ne hother]
    split <;> rfl

/-- What a successful tokenization does. -/
theorem tokenizeIdentityField_ok (h : tokenizeIdentityField tk s id fieldName nonce = .ok t) :
    ∃ field record token metaData, field ∈ tokenizableFields ∧ convertToStructFieldName fieldName = field.name ∧
      s id = some record ∧ record.stored.load.isFieldTokenized fieldName = false ∧
      tk.tokenize nonce (record.stored.fields field) = .ok token ∧
      (∀ name, markOf metaData name = if name = field.name then some true else markOf record.stored.metaData name) ∧
      t = update s id (some ⟨⟨update record.stored.fields field token,metaData⟩,record.supplied,
        update record.layers field (record.layers field+1)⟩) := by
  unfold tokenizeIdentityField at h
  split at h
  · cases h
  rename_i field hfind
  have hfield := mem_of_find?_eq_some hfind
  have hname : convertToStructFieldName fieldName = field.name := by simpa [eq_comm] using find?_some hfind
  split at h
  · cases h
  rename_i record hrecord
  obtain ⟨hmark,h⟩ := ok_of_guard h
  split at h
  · cases h
  rename_i token htoken
  obtain ⟨identity,hidentity⟩ : ∃ identity : Identity,
    identity = ⟨update record.stored.fields field token,record.stored.load.metaData⟩ := ⟨_,rfl⟩
  have hfields := update_fields record.stored (ne_identityID hfield) (tk.tokenize_ne_empty _ _ _ htoken)
    (markedMetaData identity fieldName)
  have hstored : record.stored.update (update record.stored.fields field token) (markedMetaData identity fieldName) =
      ⟨update record.stored.fields field token,markedMetaData identity fieldName⟩ :=
    congrArg (StoredIdentity.mk · (markedMetaData identity fieldName)) hfields
  refine ⟨field,record,token,markedMetaData identity fieldName,hfield,hname,hrecord,by simpa using hmark,htoken,fun name => ?_,?_⟩
  · rw [hidentity,markOf_markedMetaData,hname]
  · rw [← hstored,hidentity]
    exact (Except.ok.inj h).symm

theorem forall_update_iff {P : Record → Prop} (hs : ∀ id record, s id = some record → P record) :
    (∀ id' record', update s id (some record) id' = some record' → P record') ↔ P record := by
  constructor
  · intro h
    exact h id record (update_self ..)
  · intro h id' record' hrecord'
    by_cases hid : id' = id
    · rw [hid,update_self] at hrecord'
      cases hrecord'
      exact h
    · rw [update_of_ne hid] at hrecord'
      exact hs id' record' hrecord'

def LayeredTable (tk : Tokenizer) (s : IdentityTable) : Prop := ∀ id record, s id = some record → Layered tk record

theorem Layered.update (h : Layered tk record) (fields : TextField → String) (metaData : Option Object) :
    Layered tk ⟨record.stored.update fields metaData,
      fun field => if supplies fields field then fields field else record.supplied field,
      fun field => if supplies fields field then 0 else record.layers field⟩ := by
  have hfields field : (record.stored.update fields metaData).fields field =
      if supplies fields field then fields field else record.stored.fields field := by
    simp [StoredIdentity.update,supplies]
  refine ⟨fun field hlayer => ?_,fun field hlayer => ?_,fun field hlayer => ?_⟩ <;> dsimp only at hlayer ⊢
  · rw [hfields]
    split_ifs with hsupplied
    · rfl
    · rw [if_neg hsupplied] at hlayer
      exact h.plain field hlayer
  · split at hlayer
    · cases hlayer
    rename_i hsupplied
    rw [hfields,if_neg hsupplied,if_neg hsupplied]
    exact h.token field hlayer
  · split at hlayer
    · exact absurd hlayer (lt_irrefl 0)
    · exact h.tokenizable field hlayer

theorem Layered.tokenize (h : Layered tk record) (hfield : field ∈ tokenizableFields)
    (htoken : tk.tokenize nonce (record.stored.fields field) = .ok token) (metaData : Option Object) :
    Layered tk ⟨⟨Function.update record.stored.fields field token,metaData⟩,record.supplied,
      Function.update record.layers field (record.layers field+1)⟩ := by
  refine ⟨fun other hlayer => ?_,fun other hlayer => ?_,fun other hlayer => ?_⟩ <;> dsimp only at hlayer ⊢ <;>
    by_cases hother : other = field
  · rw [hother,Function.update_self] at hlayer
    cases hlayer
  · rw [update_of_ne hother] at hlayer ⊢
    exact h.plain other hlayer
  · subst hother
    rw [update_self] at hlayer ⊢
    rw [← h.plain other (Nat.succ.inj hlayer)]
    exact tk.roundTrip _ _ _ htoken
  · rw [update_of_ne hother] at hlayer ⊢
    exact h.token other hlayer
  · rwa [hother]
  · rw [update_of_ne hother] at hlayer
    exact h.tokenizable other hlayer

theorem LayeredTable.step (h : LayeredTable tk s) (e : IdentityEvent tk) : LayeredTable tk (s.step tk e) := by
  cases e with
  | create id fields metaData =>
    simp only [IdentityTable.step,createIdentity]
    split
    · exact h
    · exact (forall_update_iff h).mpr ⟨fun _ _ => rfl,nofun,fun _ hlayer => absurd hlayer (lt_irrefl 0)⟩
  | update id fields metaData =>
    simp only [IdentityTable.step,updateIdentity]
    split
    · exact h
    · rename_i record hrecord
      exact (forall_update_iff h).mpr ((h id record hrecord).update fields metaData)
  | merge id patch =>
    simp only [IdentityTable.step,updateMetadata]
    split
    · exact h
    rename_i record hrecord
    have hlayered := h id record hrecord
    exact (forall_update_iff h).mpr ⟨hlayered.plain,hlayered.token,hlayered.tokenizable⟩
  | tokenize id fieldName nonce =>
    simp only [IdentityTable.step]
    cases hresult : tokenizeIdentityField tk s id fieldName nonce with
    | error err => exact h
    | ok t =>
      obtain ⟨field,record,token,metaData,hfield,-,hrecord,-,htoken,-,rfl⟩ := tokenizeIdentityField_ok hresult
      exact (forall_update_iff h).mpr ((h id record hrecord).tokenize hfield htoken metaData)

def ConsistentTable (tk : Tokenizer) (s : IdentityTable) : Prop := ∀ id record, s id = some record → Consistent tk record

theorem agree_zero_iff : Agree metaData (fun _ => 0) ↔ ∀ name, markOf metaData name ≠ some true := by
  constructor
  · intro h name hname
    obtain ⟨field,-,hlayer⟩ := h.only name hname
    exact absurd hlayer (lt_irrefl 0)
  · intro h
    exact ⟨fun field _ => ⟨fun hmark => absurd hmark (h _),fun hlayer => absurd hlayer (lt_irrefl 0)⟩,
      fun name hname => absurd hname (h name)⟩

theorem agree_congr {metaData' : Option Object} (h : markOf metaData = markOf metaData') :
    Agree metaData layers ↔ Agree metaData' layers := by
  constructor <;> rintro ⟨hmarked,honly⟩ <;> exact ⟨by simpa only [h] using hmarked,by simpa only [h] using honly⟩

theorem agree_supplied_iff (h : Layered tk record) (hagree : Agree record.stored.metaData record.layers) (fields : TextField → String) :
    (Agree record.stored.metaData fun field => if supplies fields field then 0 else record.layers field) ↔
      ∀ field, supplies fields field = true → record.layers field = 0 := by
  constructor
  · intro hafter field hsupplied
    by_contra hlayer
    have hpos := Nat.pos_of_ne_zero hlayer
    have hfield := h.tokenizable field hpos
    have hmark := (hafter.marked field hfield).mp ((hagree.marked field hfield).mpr hpos)
    rw [if_pos hsupplied] at hmark
    exact lt_irrefl 0 hmark
  · intro hplain
    have hsame : (fun field => if supplies fields field then 0 else record.layers field) = record.layers := by
      funext field
      split_ifs with hsupplied
      · exact (hplain field hsupplied).symm
      · rfl
    rwa [hsame]

theorem markOf_merge (metaData : Option Object) (patch : Object) :
    markOf (some (mergeMetadata (metaData.getD fun _ => none) patch)) =
      if (patch "tokenized_fields").isSome then markOf (some patch) else markOf metaData := by
  split_ifs with hpatch <;> refine markOf_congr ?_
  · obtain ⟨value,hvalue⟩ := isSome_iff_exists.mp hpatch
    simp [markEntry,mergeMetadata,hvalue]
  · have hnone := not_isSome_iff_eq_none.mp hpatch
    simp [markEntry,mergeMetadata,hnone]

theorem Agree.layers_eq_zero (h : Agree record.stored.metaData layers)
    (hfield : field ∈ tokenizableFields) (hname : convertToStructFieldName fieldName = field.name)
    (hmark : record.stored.load.isFieldTokenized fieldName = false) : layers field = 0 := by
  by_contra hlayer
  have hmarked := (h.marked field hfield).mpr (Nat.pos_of_ne_zero hlayer)
  rw [isFieldTokenized_load,hname,hmarked] at hmark
  cases hmark

theorem Agree.tokenize {metaData' : Option Object} (h : Agree metaData layers)
    (hmarks : ∀ name, markOf metaData' name = if name = field.name then some true else markOf metaData name) :
    Agree metaData' (update layers field (layers field+1)) := by
  refine ⟨fun other hother => ?_,fun name hname => ?_⟩
  · rw [hmarks]
    by_cases hne : other = field
    · simp [hne]
    · rw [if_neg fun he => hne (name_injective he),update_of_ne hne]
      exact h.marked other hother
  · rw [hmarks] at hname
    by_cases hne : name = field.name
    · exact ⟨field,by rw [hne,convert_name],by simp⟩
    rw [if_neg hne] at hname
    obtain ⟨other,hconvert,hlayer⟩ := h.only name hname
    refine ⟨other,hconvert,?_⟩
    by_cases hother : other = field
    · simp [hother]
    · rwa [update_of_ne hother]

theorem consistent_tokenize (h : Layered tk record) (hr : Consistent tk record) (hfield : field ∈ tokenizableFields) (hname : convertToStructFieldName fieldName = field.name)
    (hmark : record.stored.load.isFieldTokenized fieldName = false)
    (htoken : tk.tokenize nonce (record.stored.fields field) = .ok token)
    (hmarks : ∀ name, markOf metaData name = if name = field.name then some true else markOf record.stored.metaData name) :
    Consistent tk ⟨⟨update record.stored.fields field token,metaData⟩,record.supplied,
      update record.layers field (record.layers field+1)⟩ := by
  obtain ⟨honce,hagree⟩ := h.consistent_iff.mp hr
  refine (h.tokenize hfield htoken metaData).consistent_iff.mpr ⟨fun other => ?_,hagree.tokenize hmarks⟩
  dsimp only
  by_cases hother : other = field
  · rw [hother,update_self,hagree.layers_eq_zero hfield hname hmark]
  · rw [update_of_ne hother]
    exact honce other

/-- A step keeps consistency exactly when it leaves tokens and marks as they are. -/
theorem consistent_step (h : LayeredTable tk s) (hs : ConsistentTable tk s) (e : IdentityEvent tk) :
    ConsistentTable tk (s.step tk e) ↔ Keeps tk s e := by
  cases e with
  | create id fields metaData =>
    simp only [step,createIdentity,Keeps]
    cases hrecord : s id with
    | some record => exact ⟨fun _ => nofun,fun _ => hs⟩
    | none =>
      have hlayered : Layered tk ⟨⟨update fields .identityID id,metaData⟩,update fields .identityID id,fun _ => 0⟩ :=
        ⟨fun _ _ => rfl,nofun,fun _ hlayer => absurd hlayer (lt_irrefl 0)⟩
      refine (forall_update_iff hs).trans (hlayered.consistent_iff.trans ?_)
      rw [and_iff_right fun _ => Nat.zero_le 1,agree_zero_iff]
      exact ⟨fun hmarks _ => hmarks,fun hmarks => hmarks rfl⟩
  | update id fields metaData =>
    simp only [step,updateIdentity]
    cases hrecord : s id with
    | none => cases metaData <;> simp only [Keeps,hrecord] <;> exact ⟨fun _ => nofun,fun _ => hs⟩
    | some record =>
      have hlayered := h id record hrecord
      obtain ⟨honce,hagree⟩ := hlayered.consistent_iff.mp (hs id record hrecord)
      have honce' : ∀ field, (if supplies fields field then 0 else record.layers field) ≤ 1 := by
        intro field
        split
        · exact Nat.zero_le 1
        · exact honce field
      refine (forall_update_iff hs).trans ((hlayered.update fields metaData).consistent_iff.trans ?_)
      rw [and_iff_right honce']
      cases metaData with
      | none =>
        simp only [Keeps,hrecord,some.injEq,forall_eq']
        exact agree_supplied_iff hlayered hagree fields
      | some object => simp only [Keeps,hrecord,some.injEq,forall_eq',StoredIdentity.update,some_or]
  | merge id patch =>
    simp only [step,updateMetadata,Keeps]
    cases hrecord : s id with
    | none => exact ⟨fun _ => nofun,fun _ => hs⟩
    | some record =>
      have hlayered := h id record hrecord
      obtain ⟨honce,hagree⟩ := hlayered.consistent_iff.mp (hs id record hrecord)
      have hlayered' : Layered tk { record with stored := { record.stored with
          metaData := some (mergeMetadata (record.stored.metaData.getD fun _ => none) patch) } } :=
        ⟨hlayered.plain,hlayered.token,hlayered.tokenizable⟩
      refine (forall_update_iff hs).trans (hlayered'.consistent_iff.trans ?_)
      rw [and_iff_right honce]
      simp only [some.injEq,forall_eq']
      have hmarks := markOf_merge record.stored.metaData patch
      by_cases hpatch : (patch "tokenized_fields").isSome = true
      · rw [if_pos hpatch] at hmarks
        rw [agree_congr hmarks]
        exact ⟨fun hpatched _ => hpatched,fun hpatched => hpatched hpatch⟩
      · rw [if_neg hpatch] at hmarks
        rw [agree_congr hmarks]
        exact iff_of_true hagree fun hsome => absurd hsome hpatch
  | tokenize id fieldName nonce =>
    refine iff_of_true ?_ trivial
    simp only [step]
    cases hresult : tokenizeIdentityField tk s id fieldName nonce with
    | error err => exact hs
    | ok t =>
      obtain ⟨field,record,token,metaData,hfield,hname,hrecord,hmark,htoken,hmarks,rfl⟩ := tokenizeIdentityField_ok hresult
      exact (forall_update_iff hs).mpr
        (consistent_tokenize (h id record hrecord) (hs id record hrecord) hfield hname hmark htoken hmarks)

def FaithfulTable (tk : Tokenizer) (s : IdentityTable) : Prop := ∀ id record, s id = some record → Faithful tk record

def PlainTable (s : IdentityTable) : Prop := ∀ id record, s id = some record → ∀ field, record.layers field = 0

theorem LayeredTable.faithful_iff (h : LayeredTable tk s) : FaithfulTable tk s ↔ ConsistentTable tk s ∧ PlainTable s := by
  constructor
  · intro hs
    exact ⟨fun id record hrecord => ((h id record hrecord).faithful_iff.mp (hs id record hrecord)).1,
      fun id record hrecord => ((h id record hrecord).faithful_iff.mp (hs id record hrecord)).2⟩
  · rintro ⟨hconsistent,hplain⟩ id record hrecord
    exact (h id record hrecord).faithful_iff.mpr ⟨hconsistent id record hrecord,hplain id record hrecord⟩

theorem plain_step (hs : PlainTable s) (e : IdentityEvent tk) : PlainTable (s.step tk e) ↔ Untokenized tk s e := by
  cases e with
  | create id fields metaData =>
    refine iff_of_true ?_ trivial
    simp only [step,createIdentity]
    split
    · exact hs
    · exact (forall_update_iff hs).mpr fun _ => rfl
  | update id fields metaData =>
    refine iff_of_true ?_ trivial
    simp only [step,updateIdentity]
    split
    · exact hs
    rename_i record hrecord
    refine (forall_update_iff hs).mpr fun field => ?_
    dsimp only
    split
    · rfl
    · exact hs id record hrecord field
  | merge id patch =>
    refine iff_of_true ?_ trivial
    simp only [step,updateMetadata]
    split
    · exact hs
    · rename_i record hrecord
      exact (forall_update_iff hs).mpr (hs id record hrecord)
  | tokenize id fieldName nonce =>
    simp only [step,Untokenized]
    cases hresult : tokenizeIdentityField tk s id fieldName nonce with
    | error err => exact iff_of_true hs rfl
    | ok t =>
      obtain ⟨field,record,token,metaData,-,-,-,-,-,-,rfl⟩ := tokenizeIdentityField_ok hresult
      refine iff_of_false (fun hplain => ?_) nofun
      have hlayer := (forall_update_iff hs).mp hplain field
      dsimp only at hlayer
      rw [update_self] at hlayer
      cases hlayer

/-- A tokenizer that only puts the letters of the format in front. -/
def exampleTokenizer : Tokenizer where
  Nonce := Unit
  tokenize _ value := .ok ("FPT:" ++ value)
  detokenize token :=
    match token.toList with
    | 'F' :: 'P' :: 'T' :: ':' :: rest => .ok (String.ofList rest)
    | _ => .error "invalid token"
  roundTrip _ value token h := by
    cases h
    simp
  tokenize_ne_empty _ value token h := by
    cases h
    simp
  detokenize_ne token value h := by
    rintro rfl
    split at h
    · rename_i rest hrest
      have hvalue := congrArg String.toList (Except.ok.inj h)
      rw [hrest,String.toList_ofList] at hvalue
      have hlength := congrArg List.length hvalue
      simp only [length_cons] at hlength
      omega
    · cases h

def exampleFields : TextField → String := update (fun _ => "") .firstName "Ada"

def tokenizedOnce : List (IdentityEvent exampleTokenizer) := [.create "idt_1" exampleFields none,.tokenize "idt_1" "firstName" ()]

/-- The client supplies the field again. -/
def suppliedAgain : List (IdentityEvent exampleTokenizer) :=
  tokenizedOnce ++ [.update "idt_1" (update (fun _ => "") .firstName "Eve") none]

/-- The client replaces the metadata, and the field is tokenized again. -/
def tokenizedTwice : List (IdentityEvent exampleTokenizer) :=
  tokenizedOnce ++ [.update "idt_1" (fun _ => "") (some fun _ => none),.tokenize "idt_1" "firstName" ()]

theorem tokenizeIdentity_run (s : IdentityTable) (id : String) (names : List (String × tk.Nonce)) : ∃ done, done <+: names ∧
    tokenizeIdentity tk s id names = (done.map fun name => IdentityEvent.tokenize id name.1 name.2).foldl (step tk) s := by
  induction names generalizing s with
  | nil => exact ⟨[],prefix_rfl,rfl⟩
  | cons name rest ih =>
    obtain ⟨fieldName,nonce⟩ := name
    unfold tokenizeIdentity
    cases hresult : tokenizeIdentityField tk s id fieldName nonce with
    | error err => exact ⟨[], nil_prefix,rfl⟩
    | ok t =>
      obtain ⟨done,hdone,hrun⟩ := ih t
      refine ⟨(fieldName,nonce) :: done,cons_prefix_cons.mpr ⟨rfl,hdone⟩,hrun.trans ?_⟩
      simp only [map_cons,foldl_cons,step,hresult]
      rfl

theorem tokenizeAllPII_run (s : IdentityTable) (id : String) (nonces : TextField → tk.Nonce) : tokenizeAllPII tk s id nonces =
    (tokenizableFields.map fun field => IdentityEvent.tokenize id field.name (nonces field)).foldl (step tk) s := by
  rfl

end LedgerForge.Identities
