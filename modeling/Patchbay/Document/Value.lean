import Patchbay.Document.Raised
/-!
# Values in documents

A value is written as an object that names its type beside its content. Reading accepts
every number for the two number types; under the type `any` the content's own kind decides.
-/
namespace Patchbay.Document

/-- The content of a value. -/
def content : Value → Json
  | .null => .null
  | .int n => .int n.toInt
  | .double x => .double x
  | .string s => .string s
  | .bool b => .bool b

/-- The name of the type that a value is written with. -/
def typeName : Value → String
  | .null => "null"
  | v => v.type.label

/-- The written form of a value. -/
def ofValue (v : Value) : Json :=
  .object [("type", .string (typeName v)), ("value", content v)]

/-- Raise a mismatch. -/
def orMismatch {α : Type} : Except Json.Mismatch α → Except Raised α
  | .ok a => .ok a
  | .error e => .error (.jsonKind e)

/-- The type of a name. -/
def typeOf (name : String) : Except Raised ValueType :=
  match ValueType.ofLabel? name with
  | some t => .ok t
  | none => .error (.badArgument (ValueType.unknownMessage name))

/-- The value of a content whose own kind decides. -/
def inferred? : Json → Option Value
  | .bool b => some (.bool b)
  | .int n => some (.int (Int64.ofInt n))
  | .double x => some (.double x)
  | .string s => some (.string s)
  | _ => none

/-- Read a content as a value of a type. -/
def readAs (t : ValueType) (c : Json) : Except Raised Value :=
  match t with
  | .int => .int <$> orMismatch c.asInt
  | .double => .double <$> orMismatch c.asDouble
  | .string => .string <$> orMismatch c.asString
  | .bool => .bool <$> orMismatch c.asBool
  | .any =>
    match inferred? c with
    | some v => .ok v
    | none => .error (.ofWords ("Invalid value for type '" ++ t.label ++ "'"))

/-- Read a value. A missing content and a null content both stand for the null value. A name that no
type has is complained about, and what JSON values raise is passed on. -/
def toValue (j : Json) : Except Raised Value := do
  match j.member? "type" with
  | none => .error (.ofWords "Invalid value: missing 'type'")
  | some t =>
    let name ← orMismatch t.asString
    match j.member? "value" with
    | none => .ok .null
    | some c =>
      if name = "null" ∨ c.isNull then .ok .null
      else
        let t ← tryCatch (typeOf name) fun e =>
          .error (if e.isArgument then e.under "Invalid value: " else e)
        readAs t c

end Patchbay.Document
