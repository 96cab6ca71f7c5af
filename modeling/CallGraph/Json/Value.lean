/-!
# JSON values

A `Json` value is null, a truth value, a number, a text, an array or an object.  A number is an exact
integer or a double, given by its bits.  The fields of an object stand in the order of their names and no
name occurs twice; `Json.ofFields` brings any list of fields into this form.
-/

namespace CallGraph

/-- A number: an integer, or a double by its bits. -/
inductive Json.Number where
  | integer (value : Int)
  | real (bits : UInt64)
  deriving DecidableEq, Repr

/-- A JSON value. -/
inductive Json where
  | null
  | bool (value : Bool)
  | number (value : Json.Number)
  | text (value : String)
  | array (items : List Json)
  | object (fields : List (String × Json))
  deriving Repr

instance : Inhabited Json := ⟨.null⟩

namespace Json

/-- Puts a field into its place among sorted fields; a field of the same name gives way. -/
def insertField (name : String) (value : Json) : List (String × Json) → List (String × Json)
  | [] => [(name, value)]
  | field :: rest =>
    if name < field.1 then (name, value) :: field :: rest
    else if name = field.1 then (name, value) :: rest
    else field :: insertField name value rest

/-- The object with the given fields, of which the last of each name counts. -/
def ofFields (fields : List (String × Json)) : Json :=
  .object (fields.foldl (fun sorted field => insertField field.1 field.2 sorted) [])

/-- The field of a name in an object. -/
def field? (name : String) : Json → Option Json
  | .object fields => fields.lookup name
  | _ => none

/-- An integer as a JSON value. -/
def ofNat (n : Nat) : Json :=
  .number (.integer n)

/-- A value or null. -/
def ofOption {α : Type} (encode : α → Json) : Option α → Json
  | none => .null
  | some a => encode a

/-- A list as an array. -/
def ofList {α : Type} (encode : α → Json) (items : List α) : Json :=
  .array (items.map encode)

end Json

end CallGraph
