import LedgerForge.Metadata.Merging

/-! # Identities and their tokens

Fields of an identity are replaced by tokens one at a time. Which fields hold a token is kept in the metadata, in an object
that clients can write as well and that has another dynamic type after it has been stored and read back.
-/

namespace LedgerForge.Identities

open Function

open Metadata (Object mergeMetadata)

/-- The text fields of an identity. -/
inductive TextField
  | identityID
  | identityType
  | organizationName
  | category
  | firstName
  | lastName
  | otherNames
  | gender
  | emailAddress
  | phoneNumber
  | nationality
  | street
  | country
  | state
  | postCode
  | city
deriving DecidableEq

namespace TextField

def name : TextField → String
  | identityID => "IdentityID"
  | identityType => "IdentityType"
  | organizationName => "OrganizationName"
  | category => "Category"
  | firstName => "FirstName"
  | lastName => "LastName"
  | otherNames => "OtherNames"
  | gender => "Gender"
  | emailAddress => "EmailAddress"
  | phoneNumber => "PhoneNumber"
  | nationality => "Nationality"
  | street => "Street"
  | country => "Country"
  | state => "State"
  | postCode => "PostCode"
  | city => "City"

def all : List TextField :=
  [identityID,identityType,organizationName,category,firstName,lastName,otherNames,gender,emailAddress,phoneNumber,nationality,
    street,country,state,postCode,city]

def ofName (name : String) : Option TextField := all.find? (·.name = name)

end TextField

def tokenizableFields : List TextField := [.firstName,.lastName,.otherNames,.emailAddress,.phoneNumber,.street,.postCode]

def convertToStructFieldName (fieldName : String) : String :=
  match fieldName.toList with
  | [] => fieldName
  | c :: cs => String.ofList (c.toUpper :: cs)

/-- The service that makes tokens. A token is longer than what it stands for. -/
structure Tokenizer where
  Nonce : Type
  tokenize : Nonce → String → Except String String
  detokenize : String → Except String String
  roundTrip : ∀ nonce value token, tokenize nonce value = .ok token → detokenize token = .ok value
  tokenize_ne_empty : ∀ nonce value token, tokenize nonce value = .ok token → token ≠ ""
  detokenize_ne : ∀ token value, detokenize token = .ok value → value ≠ token

/-- A value of the metadata in memory: what was read, or the marks as they are set. -/
inductive MetaValue
  | boolMap (marks : List (String × Bool))
  | read (value : GoValue)

/-- An identity in memory. -/
structure Identity where
  fields : TextField → String
  metaData : Option (String → Option MetaValue)

/-- An identity in the table. -/
structure StoredIdentity where
  fields : TextField → String
  metaData : Option Object

def StoredIdentity.load (stored : StoredIdentity) : Identity where
  fields := stored.fields
  metaData := stored.metaData.map fun object key => (object key).map .read

def MetaValue.write : MetaValue → GoValue
  | .boolMap marks => .map (marks.map fun mark => (mark.1,.bool mark.2))
  | .read value => value

def boolOf : Option GoValue → Option Bool
  | some (.bool b) => some b
  | _ => none

def boolEntries (entries : List (String × GoValue)) : List (String × Bool) :=
  (entries.map Prod.fst).dedup.filterMap fun key => (boolOf (entries.lookup key)).map (key,·)

def MetaValue.marks : Option MetaValue → List (String × Bool)
  | some (.boolMap marks) => marks
  | some (.read (.map entries)) => boolEntries entries
  | _ => []

namespace Identity

def isFieldTokenized (identity : Identity) (fieldName : String) : Bool :=
  match identity.metaData with
  | none => false
  | some metaData => match metaData "tokenized_fields" with
    | some (.boolMap marks) => (marks.lookup (convertToStructFieldName fieldName)).getD false || (marks.lookup fieldName).getD false
    | some (.read (.map entries)) => match entries.lookup (convertToStructFieldName fieldName) with
      | some (.bool b) => b
      | _ => match entries.lookup fieldName with
        | some (.bool b) => b
        | _ => false
    | _ => false

def markFieldAsTokenized (identity : Identity) (fieldName : String) : Identity :=
  let metaData := identity.metaData.getD fun _ => none
  let structFieldName := convertToStructFieldName fieldName
  let marks := (MetaValue.marks (metaData "tokenized_fields")).filter (·.1 ≠ structFieldName) ++ [(structFieldName,true)]
  { identity with metaData := some (update metaData "tokenized_fields" (some (.boolMap marks))) }

/-- The text that reflection gives for a field: for a field that is no string, the name of its type. -/
def fieldByName (identity : Identity) (name : String) : Option String :=
  match TextField.ofName name with
  | some field => some (identity.fields field)
  | none =>
    if name = "DOB" ∨ name = "CreatedAt" then some "<time.Time Value>"
    else if name = "MetaData" then some "<map[string]interface \x7b\x7d Value>"
    else none

end Identity

inductive IdentityError
  | identityNotFound
  | identityExists
  | notTokenizable (field : String)
  | alreadyTokenized (field : String)
  | notTokenized (field : String)
  | fieldNotFound (field : String)
  | token (err : String)

variable (tk : Tokenizer)

def Tokenizer.detokenizeValue (token : String) : Except IdentityError String := (tk.detokenize token).mapError .token

namespace Identity

def detokenizeIdentityField (identity : Identity) (fieldName : String) : Except IdentityError String :=
  let structFieldName := convertToStructFieldName fieldName
  if identity.isFieldTokenized fieldName = false ∧ identity.isFieldTokenized structFieldName = false then .error (.notTokenized fieldName)
  else match identity.fieldByName structFieldName with
    | some text => tk.detokenizeValue text
    | none => match identity.fieldByName fieldName with
      | some text => tk.detokenizeValue text
      | none => .error (.fieldNotFound fieldName)

def detokenizeFields (identity : Identity) : List String → Except IdentityError (List (String × String))
  | [] => .ok []
  | fieldName :: rest => do
    let value ← identity.detokenizeIdentityField tk fieldName
    let values ← identity.detokenizeFields rest
    return (fieldName,value) :: values

def markedFields (identity : Identity) : List String :=
  match identity.metaData with
  | none => []
  | some metaData => ((MetaValue.marks (metaData "tokenized_fields")).filter (·.2)).map Prod.fst

def detokenizeIdentity (identity : Identity) : Except IdentityError (List (String × String)) :=
  identity.detokenizeFields tk identity.markedFields

def getDetokenizedIdentity (identity : Identity) : Except IdentityError Identity :=
  match identity.metaData with
  | none => .ok identity
  | some metaData => do
    let values ← match metaData "tokenized_fields" with
      | some (.boolMap marks) => identity.detokenizeFields tk ((marks.filter (·.2)).map Prod.fst)
      | _ => .ok []
    return ⟨fun field => (values.lookup field.name).getD (identity.fields field),
      some (update metaData "tokenized_fields" none)⟩

end Identity

/-- The statement that updates a row sets the fields that are not empty, and the metadata if there is any. -/
def StoredIdentity.update (stored : StoredIdentity) (fields : TextField → String) (metaData : Option Object) : StoredIdentity where
  fields field := if field ≠ .identityID ∧ fields field ≠ "" then fields field else stored.fields field
  metaData := metaData.or stored.metaData

/-- A row with the plaintext last supplied for each field, and how many times it has been replaced by a token since. -/
structure Record where
  stored : StoredIdentity
  supplied : TextField → String
  layers : TextField → ℕ

abbrev IdentityTable := String → Option Record

inductive IdentityEvent
  | create (id : String) (fields : TextField → String) (metaData : Option Object)
  | update (id : String) (fields : TextField → String) (metaData : Option Object)
  /-- A patch is merged into the metadata. -/
  | merge (id : String) (patch : Object)
  | tokenize (id fieldName : String) (nonce : tk.Nonce)

namespace IdentityTable

/-- A client supplies a field that is not empty. -/
def supplies (fields : TextField → String) (field : TextField) : Bool := field ≠ .identityID ∧ fields field ≠ ""

def createIdentity (s : IdentityTable) (id : String) (fields : TextField → String) (metaData : Option Object) : Except IdentityError IdentityTable :=
  match s id with
  | some _ => .error .identityExists
  | none =>
    let fields := update fields .identityID id
    .ok (update s id (some ⟨⟨fields,metaData⟩,fields,fun _ => 0⟩))

def updateIdentity (s : IdentityTable) (id : String) (fields : TextField → String) (metaData : Option Object) : Except IdentityError IdentityTable :=
  match s id with
  | none => .error .identityNotFound
  | some record => .ok (update s id (some ⟨record.stored.update fields metaData,
      fun field => if supplies fields field then fields field else record.supplied field,
      fun field => if supplies fields field then 0 else record.layers field⟩))

def updateMetadata (s : IdentityTable) (id : String) (patch : Object) : Except IdentityError IdentityTable :=
  match s id with
  | none => .error .identityNotFound
  | some record =>
    let merged := mergeMetadata (record.stored.metaData.getD fun _ => none) patch
    .ok (update s id (some { record with stored := { record.stored with metaData := some merged } }))

/-- The identity is read, one field is replaced, and the whole row is written back. -/
def tokenizeIdentityField (s : IdentityTable) (id fieldName : String) (nonce : tk.Nonce) : Except IdentityError IdentityTable :=
  match tokenizableFields.find? (·.name = convertToStructFieldName fieldName) with
  | none => .error (.notTokenizable fieldName)
  | some field => match s id with
    | none => .error .identityNotFound
    | some record =>
      let identity := record.stored.load
      if identity.isFieldTokenized fieldName then .error (.alreadyTokenized fieldName)
      else match tk.tokenize nonce (identity.fields field) with
        | .error err => .error (.token err)
        | .ok token =>
          let identity := { identity with fields := update identity.fields field token }.markFieldAsTokenized fieldName
          .ok (update s id (some ⟨
            record.stored.update identity.fields (identity.metaData.map fun metaData key => (metaData key).map MetaValue.write),
            record.supplied,update record.layers field (record.layers field+1)⟩))

/-- The fields are replaced in turn, up to the first that fails. -/
def tokenizeIdentity (s : IdentityTable) (id : String) : List (String × tk.Nonce) → IdentityTable
  | [] => s
  | (fieldName,nonce) :: rest => match tokenizeIdentityField tk s id fieldName nonce with
    | .error _ => s
    | .ok t => tokenizeIdentity t id rest

/-- Fields that fail are passed over. -/
def tokenizeAllPII (s : IdentityTable) (id : String) (nonces : TextField → tk.Nonce) : IdentityTable :=
  tokenizableFields.foldl (fun s field => (tokenizeIdentityField tk s id field.name (nonces field)).toOption.getD s) s

/-- A request that fails changes nothing. -/
def step (s : IdentityTable) : IdentityEvent tk → IdentityTable
  | .create id fields metaData => (s.createIdentity id fields metaData).toOption.getD s
  | .update id fields metaData => (s.updateIdentity id fields metaData).toOption.getD s
  | .merge id patch => (s.updateMetadata id patch).toOption.getD s
  | .tokenize id fieldName nonce => (tokenizeIdentityField tk s id fieldName nonce).toOption.getD s

def init : IdentityTable := fun _ => none

end IdentityTable

/-- Tokens and marks agree, no field is replaced twice, and detokenizing gives what was supplied. -/
structure Consistent (record : Record) : Prop where
  marked : ∀ field ∈ tokenizableFields, record.stored.load.isFieldTokenized field.name = true ↔ 0 < record.layers field
  once : ∀ field, record.layers field ≤ 1
  field : ∀ field ∈ tokenizableFields, 0 < record.layers field → ∀ fieldName, convertToStructFieldName fieldName = field.name →
    (record.stored.load.detokenizeIdentityField tk fieldName).toOption = some (record.supplied field)
  identity : ∃ values, (record.stored.load.detokenizeIdentity tk).toOption = some values ∧
    (∀ field ∈ tokenizableFields, 0 < record.layers field → (field.name,record.supplied field) ∈ values) ∧
    ∀ value ∈ values, ∃ field : TextField, convertToStructFieldName value.1 = field.name ∧ value.2 = record.supplied field

/-- And the detokenized identity has what was supplied in every field. -/
structure Faithful (record : Record) : Prop extends Consistent tk record where
  detokenized : ∃ identity, (record.stored.load.getDetokenizedIdentity tk).toOption = some identity ∧
    identity.fields = record.supplied

def markOf (metaData : Option Object) (name : String) : Option Bool :=
  (MetaValue.marks (((metaData.getD fun _ => none) "tokenized_fields").map .read)).lookup name

/-- The marks are those of the fields that hold a token. -/
structure Agree (metaData : Option Object) (layers : TextField → ℕ) : Prop where
  marked : ∀ field ∈ tokenizableFields, markOf metaData field.name = some true ↔ 0 < layers field
  only : ∀ name, markOf metaData name = some true → ∃ field : TextField, convertToStructFieldName name = field.name ∧ 0 < layers field

def Keeps (s : IdentityTable) : IdentityEvent tk → Prop
  | .create id _ metaData => s id = none → ∀ name, markOf metaData name ≠ some true
  | .update id fields none => ∀ record, s id = some record → ∀ field, IdentityTable.supplies fields field = true → record.layers field = 0
  -- New metadata replaces the marks.
  | .update id fields (some metaData) => ∀ record, s id = some record →
      Agree (some metaData) fun field => if IdentityTable.supplies fields field then 0 else record.layers field
  | .merge id patch => ∀ record, s id = some record → (patch "tokenized_fields").isSome → Agree (some patch) record.layers
  | .tokenize _ _ _ => True

/-- No field is replaced by a token. -/
def Untokenized (s : IdentityTable) : IdentityEvent tk → Prop
  | .tokenize id fieldName nonce => (IdentityTable.tokenizeIdentityField tk s id fieldName nonce).isOk = false
  | _ => True

end LedgerForge.Identities
