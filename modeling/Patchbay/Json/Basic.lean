import Patchbay.Dict
import Patchbay.Value
/-!
# JSON values

A JSON number is an integer or a double, depending on how it is written. The members of an
object are listed by ascending key. The accessors read a value as a number, a text or a
truth value and name the kinds involved when that is refused.
-/
namespace Patchbay

/-- A JSON value. -/
inductive Json where
  | null
  | bool (b : Bool)
  | int (n : Int)
  | double (x : Double)
  | string (s : String)
  | array (items : List Json)
  | object (members : List (String × Json))

namespace Json

instance : Inhabited Json := ⟨null⟩

/-- The kinds of JSON values. -/
inductive Kind where
  | null
  | bool
  | number
  | string
  | array
  | object
  deriving DecidableEq, Repr

/-- The name of a kind. -/
def Kind.label : Kind → String
  | null => "null"
  | bool => "boolean"
  | number => "number"
  | string => "string"
  | array => "array"
  | object => "object"

/-- The kind of a value. -/
def kind : Json → Kind
  | null => .null
  | bool _ => .bool
  | int _ | double _ => .number
  | string _ => .string
  | array _ => .array
  | object _ => .object

/-- A value of another kind than the one wanted. -/
structure Mismatch where
  wanted : Kind
  found : Kind
  deriving DecidableEq, Repr

/-- The wording of a mismatch. -/
def Mismatch.message (e : Mismatch) : String :=
  "type must be " ++ e.wanted.label ++ ", but is " ++ e.found.label

/-- An object with the given members, of which the last under a key counts. -/
def ofMembers (members : List (String × Json)) : Json := object (Dict.ofList members).entries

/-- A natural number. -/
def ofNat (n : Nat) : Json := int n

/-- A text, or null in place of none. -/
def ofOption : Option String → Json
  | some s => string s
  | none => null

/-- The member of an object under a key; other values have no members. -/
def member? : Json → String → Option Json
  | object members, key => (members.find? (fun m => m.1 = key)).map (·.2)
  | _, _ => none

/-- Is this an object? -/
def isObject (j : Json) : Bool := j.kind = .object

/-- Is this null? -/
def isNull (j : Json) : Bool := j.kind = .null

/-- The items of an array. -/
def items? : Json → Option (List Json)
  | array items => some items
  | _ => none

/-- A number as an integer of 64 bits; a double loses its fraction, and an integer that is too
large is taken modulo the number of integers. -/
def asInt : Json → Except Mismatch Int64
  | int n => .ok (Int64.ofInt n)
  | double x => .ok (Value.truncate x.toFloat)
  | j => .error ⟨.number, j.kind⟩

/-- A number as a double. -/
def asDouble : Json → Except Mismatch Double
  | int n => .ok (Float.ofInt n)
  | double x => .ok x
  | j => .error ⟨.number, j.kind⟩

/-- A text. -/
def asString : Json → Except Mismatch String
  | string s => .ok s
  | j => .error ⟨.string, j.kind⟩

/-- A truth value. -/
def asBool : Json → Except Mismatch Bool
  | bool b => .ok b
  | j => .error ⟨.bool, j.kind⟩

/-- Read the member of an object under a key, or take a fallback if there is none. Only
objects can be asked. -/
def memberOr {α : Type} (j : Json) (key : String) (read : Json → Except Mismatch α)
    (fallback : α) : Except Mismatch α :=
  if j.isObject then
    match j.member? key with
    | some m => read m
    | none => .ok fallback
  else .error ⟨.object, j.kind⟩

/-- Read the text under a key; a missing member and null both stand for no text. -/
def optionalString (j : Json) (key : String) : Except Mismatch (Option String) :=
  match j.member? key with
  | none => .ok none
  | some null => .ok none
  | some m => some <$> m.asString

end Json
end Patchbay
