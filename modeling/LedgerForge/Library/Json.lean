import LedgerForge.Library.Results
import LedgerForge.Numeric.Float64

/-! # JSON values and their readers

JSON trees, the dynamically typed values that Go reads them into, and readers for the fields of a record. A number is
exact in a tree and a double in a value, so only what was written from values comes back unchanged.
-/

namespace LedgerForge

open List

/-- A JSON tree. -/
inductive Json
  | null
  | bool (b : Bool)
  | number (q : ℚ)
  | string (s : String)
  | array (items : List Json)
  | object (fields : List (String × Json))

/-- A value of a dynamic type; maps are given by their entries. -/
inductive GoValue
  | nil
  | bool (b : Bool)
  | number (x : Float64)
  | string (s : String)
  | slice (items : List GoValue)
  | map (entries : List (String × GoValue))

/-- A double is written as its exact value. -/
def marshalDouble : Float64 → Except String Json
  | .finite d _ => .ok (.number d.value)
  | .nan => .error "json: unsupported value: NaN"
  | .inf negative => .error (if negative then "json: unsupported value: -Inf" else "json: unsupported value: +Inf")

/-- A number that is no finite double is refused. -/
def unmarshalDouble (q : ℚ) : Except String GoValue :=
  match Float64.ofRat q with
  | .finite d h => .ok (.number (.finite d h))
  | _ => .error "json: cannot unmarshal number into Go value of type float64"

theorem unmarshalDouble_marshal {x : Float64} {j : Json} (h : marshalDouble x = .ok j) :
    ∃ q, j = .number q ∧ unmarshalDouble q = .ok (.number x) := by
  cases x with
  | nan => simp [marshalDouble] at h
  | inf negative => simp [marshalDouble] at h
  | finite d hd =>
    have hd' := Float64.ofRat_value d hd
    simp only [marshalDouble,Except.ok.injEq] at h
    refine ⟨d.value,h.symm,?_⟩
    unfold unmarshalDouble
    rw [hd']

mutual

def GoValue.marshal : GoValue → Except String Json
  | .nil => .ok .null
  | .bool b => .ok (.bool b)
  | .number x => marshalDouble x
  | .string s => .ok (.string s)
  | .slice items => (marshalItems items).map .array
  | .map entries => (marshalEntries entries).map .object

def GoValue.marshalItems : List GoValue → Except String (List Json)
  | [] => .ok []
  | v :: items => do
    let j ← v.marshal
    return j :: (← marshalItems items)

def GoValue.marshalEntries : List (String × GoValue) → Except String (List (String × Json))
  | [] => .ok []
  | (key,v) :: entries => do
    let j ← v.marshal
    return (key,j) :: (← marshalEntries entries)

end

mutual

def Json.unmarshal : Json → Except String GoValue
  | .null => .ok .nil
  | .bool b => .ok (.bool b)
  | .number q => unmarshalDouble q
  | .string s => .ok (.string s)
  | .array items => (unmarshalItems items).map .slice
  | .object fields => (unmarshalFields fields).map .map

def Json.unmarshalItems : List Json → Except String (List GoValue)
  | [] => .ok []
  | j :: items => do
    let v ← j.unmarshal
    return v :: (← unmarshalItems items)

def Json.unmarshalFields : List (String × Json) → Except String (List (String × GoValue))
  | [] => .ok []
  | (key,j) :: fields => do
    let v ← j.unmarshal
    return (key,v) :: (← unmarshalFields fields)

end

mutual

/-- A text with a zero character cannot be stored. -/
def Json.storable : Json → Bool
  | .string s => !s.toList.contains '\x00'
  | .array items => storableItems items
  | .object fields => storableFields fields
  | _ => true

def Json.storableItems : List Json → Bool
  | [] => true
  | j :: items => j.storable && storableItems items

def Json.storableFields : List (String × Json) → Bool
  | [] => true
  | (key,j) :: fields => !key.toList.contains '\x00' && j.storable && storableFields fields

end

open GoValue Json

mutual

theorem unmarshal_marshal : ∀ {v : GoValue} {j : Json}, v.marshal = .ok j → j.unmarshal = .ok v
  | .nil, j, h | .bool _, j, h | .string _, j, h => by
    simp only [marshal,Except.ok.injEq] at h
    rw [← h]
    simp only [Json.unmarshal]
  | .number x, j, h => by
    rw [marshal] at h
    obtain ⟨q,rfl,hq⟩ := unmarshalDouble_marshal h
    rw [Json.unmarshal,hq]
  | .slice items, j, h => by
    rw [marshal] at h
    obtain ⟨js,hjs,rfl⟩ := map_ok h
    rw [Json.unmarshal,unmarshalItems_marshal hjs]
    rfl
  | .map entries, j, h => by
    rw [marshal] at h
    obtain ⟨fields,hfields,rfl⟩ := map_ok h
    rw [Json.unmarshal,unmarshalFields_marshal hfields]
    rfl

theorem unmarshalItems_marshal : ∀ {items : List GoValue} {js : List Json}, marshalItems items = .ok js →
    unmarshalItems js = .ok items
  | [], js, h => by
    cases h
    rfl
  | v :: items, js, h => by
    obtain ⟨j,hj,h⟩ := bind_ok h
    obtain ⟨rest,hrest,h⟩ := bind_ok h
    cases h
    rw [unmarshalItems,unmarshal_marshal hj,unmarshalItems_marshal hrest]
    rfl

theorem unmarshalFields_marshal : ∀ {entries : List (String × GoValue)} {fields : List (String × Json)},
    marshalEntries entries = .ok fields → unmarshalFields fields = .ok entries
  | [], fields, h => by
    cases h
    rfl
  | (key,v) :: entries, fields, h => by
    obtain ⟨j,hj,h⟩ := bind_ok h
    obtain ⟨rest,hrest,h⟩ := bind_ok h
    cases h
    rw [unmarshalFields,unmarshal_marshal hj,unmarshalFields_marshal hrest]
    rfl

end

theorem lookup_marshalEntries {entries : List (String × GoValue)} {fields : List (String × Json)} {key : String}
    {v : GoValue} (h : marshalEntries entries = .ok fields) (hv : entries.lookup key = some v) :
    ∃ j, fields.lookup key = some j ∧ v.marshal = .ok j := by
  induction entries generalizing fields with
  | nil => cases hv
  | cons entry entries ih =>
    obtain ⟨j,hj,h⟩ := bind_ok h
    obtain ⟨rest,hrest,h⟩ := bind_ok h
    cases h
    rw [lookup_cons] at hv ⊢
    split at hv
    · cases hv
      exact ⟨j,rfl,hj⟩
    · exact ih hrest hv

theorem lookup_marshalEntries_none {entries : List (String × GoValue)} {fields : List (String × Json)} {key : String}
    (h : marshalEntries entries = .ok fields) (hv : entries.lookup key = none) : fields.lookup key = none := by
  induction entries generalizing fields with
  | nil =>
    cases h
    rfl
  | cons entry entries ih =>
    obtain ⟨j,-,h⟩ := bind_ok h
    obtain ⟨rest,hrest,h⟩ := bind_ok h
    cases h
    rw [lookup_cons] at hv ⊢
    split at hv
    · cases hv
    · exact ih hrest hv

theorem lookup_unmarshalFields {entries : List (String × GoValue)} {fields : List (String × Json)} {key : String}
    {j : Json} (h : unmarshalFields fields = .ok entries) (hj : fields.lookup key = some j) :
    ∃ v, entries.lookup key = some v ∧ j.unmarshal = .ok v := by
  induction fields generalizing entries with
  | nil => cases hj
  | cons field fields ih =>
    obtain ⟨v,hv,h⟩ := bind_ok h
    obtain ⟨rest,hrest,h⟩ := bind_ok h
    cases h
    rw [lookup_cons] at hj ⊢
    split at hj
    · cases hj
      exact ⟨v,rfl,hv⟩
    · exact ih hrest hj

def Json.Readable (j : Json) : Prop := ∃ v, j.unmarshal = .ok v

theorem exists_unmarshalFields {fields : List (String × Json)} (h : ∀ field ∈ fields, field.2.Readable) :
    ∃ entries, unmarshalFields fields = .ok entries := by
  induction fields with
  | nil => exact ⟨[],rfl⟩
  | cons field fields ih =>
    rw [forall_mem_cons] at h
    obtain ⟨v,hv⟩ := h.1
    obtain ⟨entries,hentries⟩ := ih h.2
    refine ⟨(field.1,v) :: entries,?_⟩
    rw [unmarshalFields,hv,hentries]
    rfl

theorem readable_of_marshalEntries {entries : List (String × GoValue)} {fields : List (String × Json)}
    (h : marshalEntries entries = .ok fields) : ∀ field ∈ fields, field.2.Readable := by
  induction entries generalizing fields with
  | nil =>
    cases h
    exact fun _ h => absurd h not_mem_nil
  | cons entry entries ih =>
    obtain ⟨j,hj,h⟩ := bind_ok h
    obtain ⟨rest,hrest,h⟩ := bind_ok h
    cases h
    exact forall_mem_cons.mpr ⟨⟨_,unmarshal_marshal hj⟩,ih hrest⟩

namespace Json

def put (fields : List (String × Json)) (key : String) (j : Json) : List (String × Json) :=
  fields.filter (fun field => field.1 ≠ key) ++ [(key,j)]

def merge (fields patch : List (String × Json)) : List (String × Json) :=
  patch.foldl (fun fields field => put fields field.1 field.2) fields

theorem lookup_filter_ne {α : Type} (entries : List (String × α)) (key : String) :
    (entries.filter fun entry => entry.1 ≠ key).lookup key = none := by
  simp only [lookup_eq_none_iff,mem_filter,decide_eq_true_eq]
  intro entry hentry
  exact bne_iff_ne.mpr hentry.2.symm

theorem lookup_put (fields : List (String × Json)) (key : String) (j : Json) : (put fields key j).lookup key = some j := by
  rw [put,lookup_append,lookup_filter_ne,lookup_cons_self]
  rfl

theorem forall_mem_put {P : String × Json → Prop} {fields : List (String × Json)} {key : String} {j : Json}
    (h : ∀ field ∈ fields, P field) (hj : P (key,j)) : ∀ field ∈ put fields key j, P field := by
  intro field hfield
  rcases mem_append.mp hfield with hfield | hfield
  · exact h field (mem_filter.mp hfield).1
  · rw [mem_singleton.mp hfield]
    exact hj

theorem forall_mem_merge {P : String × Json → Prop} {fields patch : List (String × Json)}
    (h : ∀ field ∈ fields, P field) (hpatch : ∀ field ∈ patch, P field) : ∀ field ∈ merge fields patch, P field := by
  induction patch generalizing fields with
  | nil => exact h
  | cons field patch ih =>
    rw [forall_mem_cons] at hpatch
    exact ih (forall_mem_put h hpatch.1) hpatch.2

end Json

def readField {α : Type} (zero : α) (read : Json → Except String α) : Option Json → Except String α
  | none | some .null => .ok zero
  | some j => read j

/-- How fields of one type are written and read. -/
structure FieldCodec (α : Type) where
  zero : α
  write : α → Except String GoValue
  read : Json → Except String α
  read_write : ∀ {a v j}, write a = .ok v → v.marshal = .ok j → readField zero read (some j) = .ok a

namespace FieldCodec

variable {α : Type}

def get (c : FieldCodec α) (fields : List (String × Json)) (key : String) : Except String α :=
  readField c.zero c.read (fields.lookup key)

theorem get_of_lookup (c : FieldCodec α) {entries : List (String × GoValue)} {fields : List (String × Json)}
    {key : String} {v : GoValue} {a : α} (h : marshalEntries entries = .ok fields)
    (hkey : entries.lookup key = some v) (hv : c.write a = .ok v) : c.get fields key = .ok a := by
  obtain ⟨j,hj,hm⟩ := lookup_marshalEntries h hkey
  rw [get,hj]
  exact c.read_write hv hm

def typeError (type : String) : String := "json: cannot unmarshal into Go value of type " ++ type

def bool : FieldCodec Bool where
  zero := false
  write b := .ok (.bool b)
  read
    | .bool b => .ok b
    | _ => .error (typeError "bool")
  read_write := by
    intro b v j hv hj
    cases hv
    cases hj
    rfl

def string : FieldCodec String where
  zero := ""
  write s := .ok (.string s)
  read
    | .string s => .ok s
    | _ => .error (typeError "string")
  read_write := by
    intro s v j hv hj
    cases hv
    cases hj
    rfl

/-- A map with values of a dynamic type, or no map. -/
def map : FieldCodec (Option (List (String × GoValue))) where
  zero := none
  write
    | none => .ok .nil
    | some entries => .ok (.map entries)
  read
    | .object fields => (unmarshalFields fields).map some
    | _ => .error (typeError "map[string]interface {}")
  read_write := by
    intro m v j hv hj
    cases m with
    | none =>
      cases hv
      cases hj
      rfl
    | some entries =>
      cases hv
      rw [marshal] at hj
      obtain ⟨fields,hfields,rfl⟩ := map_ok hj
      simp only [readField,unmarshalFields_marshal hfields]
      rfl

def writeItems (c : FieldCodec α) : List α → Except String (List GoValue)
  | [] => .ok []
  | a :: items => do
    let v ← c.write a
    return v :: (← c.writeItems items)

def readItems (c : FieldCodec α) : List Json → Except String (List α)
  | [] => .ok []
  | j :: items => do
    let a ← readField c.zero c.read (some j)
    return a :: (← c.readItems items)

theorem readItems_writeItems (c : FieldCodec α) {l : List α} {items : List GoValue} {js : List Json}
    (hitems : c.writeItems l = .ok items) (hjs : marshalItems items = .ok js) : c.readItems js = .ok l := by
  induction l generalizing items js with
  | nil =>
    cases hitems
    cases hjs
    rfl
  | cons a l ih =>
    obtain ⟨v,hv,hitems⟩ := bind_ok hitems
    obtain ⟨rest,hrest,hitems⟩ := bind_ok hitems
    cases hitems
    obtain ⟨j,hj,hjs⟩ := bind_ok hjs
    obtain ⟨js',hjs',hjs⟩ := bind_ok hjs
    cases hjs
    rw [readItems,c.read_write hv hj,ih hrest hjs']
    rfl

/-- A slice, or no slice. -/
def slice (c : FieldCodec α) : FieldCodec (Option (List α)) where
  zero := none
  write
    | none => .ok .nil
    | some l => (c.writeItems l).map .slice
  read
    | .array js => (c.readItems js).map some
    | _ => .error (typeError "slice")
  read_write := by
    intro l v j hv hj
    cases l with
    | none =>
      cases hv
      cases hj
      rfl
    | some l =>
      obtain ⟨items,hitems,rfl⟩ := map_ok hv
      rw [marshal] at hj
      obtain ⟨js,hjs,rfl⟩ := map_ok hj
      simp only [readField,readItems_writeItems c hitems hjs]
      rfl

end FieldCodec

end LedgerForge
