import CallGraph.Json.Value
import CallGraph.Text.Decimal
import CallGraph.Text.Quoted

/-!
# Values as JSON

`Codec α` writes values of `α` as JSON and reads them back; reading refuses with a `DecodeFault`.  A
record is read from an object, whose fields are looked at in the order of their names, or from an array of
its fields in the order of their declaration.  Unknown fields are passed over unless the record is strict.
-/

namespace CallGraph

/-- Why a JSON value is not a value of the wanted type. -/
inductive DecodeFault where
  | invalidType (got want : String)
  | invalidValue (got want : String)
  | invalidLength (length : Nat) (want : String)
  | missingField (name : String)
  | unknownField (name : String) (known : List String)
  | unknownVariant (name : String) (known : List String)
  deriving DecidableEq, Repr

namespace DecodeFault

/-- A name between grave accents. -/
def tick (name : String) : String :=
  "\x60" ++ name ++ "\x60"

/-- A decode fault in words. -/
def message : DecodeFault → String
  | invalidType got want => s!"invalid type: {got}, expected {want}"
  | invalidValue got want => s!"invalid value: {got}, expected {want}"
  | invalidLength length want => s!"invalid length {length}, expected {want}"
  | missingField name => s!"missing field {tick name}"
  | unknownField name known =>
    s!"unknown field {tick name}, expected one of " ++ ", ".intercalate (known.map tick)
  | unknownVariant name known =>
    s!"unknown variant {tick name}, expected one of " ++ ", ".intercalate (known.map tick)

end DecodeFault

/-- What a JSON value is called in a decode fault. -/
def Json.describe : Json → String
  | .null => "null"
  | .bool value => "boolean " ++ DecodeFault.tick (if value then "true" else "false")
  | .number (.integer value) => "integer " ++ DecodeFault.tick (toString value)
  | .number (.real bits) => "floating point " ++ DecodeFault.tick (Decimal.text bits)
  | .text value => "string " ++ Quoted.text value
  | .array _ => "sequence"
  | .object _ => "map"

/-- Values that have a JSON form. -/
class Codec (α : Type) where
  encode : α → Json
  decode : Json → Except DecodeFault α

export Codec (encode decode)

/-- The refusal of a value where another type is wanted. -/
def wrongType {α : Type} (value : Json) (want : String) : Except DecodeFault α :=
  .error (.invalidType value.describe want)

/-! ### Plain values -/

instance : Codec Json := ⟨id, .ok⟩

instance : Codec Bool where
  encode := .bool
  decode
    | .bool value => .ok value
    | other => wrongType other "a boolean"

instance : Codec String where
  encode := .text
  decode
    | .text value => .ok value
    | other => wrongType other "a string"

/-- Reads an integer of at most `limit`, called `want`. -/
def decodeBounded (limit : Nat) (want : String) : Json → Except DecodeFault Nat
  | .number (.integer value) =>
    if 0 ≤ value && value ≤ limit then .ok value.toNat
    else .error (.invalidValue (Json.number (.integer value)).describe want)
  | other => wrongType other want

instance : Codec UInt32 where
  encode n := .ofNat n.toNat
  decode value := (decodeBounded 4294967295 "u32" value).map UInt32.ofNat

instance : Codec UInt64 where
  encode n := .ofNat n.toNat
  decode value := (decodeBounded 18446744073709551615 "usize" value).map UInt64.ofNat

instance {α : Type} [Codec α] : Codec (Option α) where
  encode := Json.ofOption encode
  decode
    | .null => .ok none
    | other => (decode other).map some

/-- Reads the items of an array in order. -/
def decodeItems {α : Type} [Codec α] : List Json → Except DecodeFault (List α)
  | [] => .ok []
  | item :: items => do
    let a ← decode item
    let as ← decodeItems items
    .ok (a :: as)

instance {α : Type} [Codec α] : Codec (List α) where
  encode := Json.ofList encode
  decode
    | .array items => decodeItems items
    | other => wrongType other "a sequence"

/-- Reads a value for its faults only. -/
def check (α : Type) [Codec α] (value : Json) : Except DecodeFault Unit :=
  (decode value : Except DecodeFault α).map fun _ => ()

/-! ### Records -/

/-- A record about to be read: its name and fields, and the object or array it is read from. -/
structure RecordReader where
  name : String
  fields : List (String × (Json → Except DecodeFault Unit))
  /-- Whether fields that an array leaves out count as absent. -/
  lenient : Bool
  source : List (String × Json) ⊕ List Json

namespace RecordReader

/-- Looks at the fields of an object in order. -/
def checkFields (known : List (String × (Json → Except DecodeFault Unit))) (strict : Bool) :
    List (String × Json) → Except DecodeFault Unit
  | [] => .ok ()
  | (name, value) :: rest =>
    match known.lookup name with
    | some check => do
      check value
      checkFields known strict rest
    | none =>
      if strict then .error (.unknownField name (known.map (·.1))) else checkFields known strict rest

/-- Begins to read a record. -/
def start (name : String) (fields : List (String × (Json → Except DecodeFault Unit)))
    (strict lenient : Bool)
    (value : Json) : Except DecodeFault RecordReader :=
  match value with
  | .object given => do
    checkFields fields strict given
    .ok ⟨name, fields, lenient, .inl given⟩
  | .array items => .ok ⟨name, fields, lenient, .inr items⟩
  | other => wrongType other ("struct " ++ name)

/-- The number of fields in words. -/
def elements (r : RecordReader) : String :=
  s!"struct {r.name} with {r.fields.length} element" ++ (if r.fields.length == 1 then "" else "s")

/-- The position of a field. -/
def position (r : RecordReader) (field : String) : Nat :=
  r.fields.findIdx (·.1 == field)

/-- A field that must be there. -/
def required (r : RecordReader) (field : String) {α : Type} [Codec α] : Except DecodeFault α :=
  match r.source with
  | .inl given =>
    match given.lookup field with
    | some value => decode value
    | none => .error (.missingField field)
  | .inr items =>
    match items[r.position field]? with
    | some value => decode value
    | none => .error (.invalidLength (r.position field) r.elements)

/-- A field that may be absent or null. -/
def optional (r : RecordReader) (field : String) {α : Type} [Codec α] : Except DecodeFault (Option α) :=
  match r.source with
  | .inl given =>
    match given.lookup field with
    | some value => decode value
    | none => .ok none
  | .inr items =>
    match items[r.position field]? with
    | some value => decode value
    | none => if r.lenient then .ok none else .error (.invalidLength (r.position field) r.elements)

/-- Ends the reading: an array must not hold more than the fields. -/
def finish (r : RecordReader) : Except DecodeFault Unit :=
  match r.source with
  | .inl _ => .ok ()
  | .inr items =>
    if r.fields.length < items.length then .error (.invalidLength items.length "fewer elements in array")
    else .ok ()

end RecordReader

end CallGraph
