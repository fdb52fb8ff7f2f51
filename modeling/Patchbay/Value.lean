import Patchbay.Decimal.Layout
import Patchbay.Decimal.Reader
import Patchbay.Text
/-!
# Values on pins

A data pin holds a value: nothing, an integer, a double, a text or a truth value. The
accessors convert between numbers and read numbers in texts; each says exactly why it
refuses.
-/
namespace Patchbay

/-- The types that a data pin can ask for. -/
inductive ValueType where
  | any
  | int
  | double
  | string
  | bool
  deriving DecidableEq, Repr, Inhabited

namespace ValueType

/-- All types, in declaration order. -/
def all : List ValueType := [any, int, double, string, bool]

/-- The name of a type. -/
def label : ValueType → String
  | any => "any"
  | int => "int"
  | double => "double"
  | string => "string"
  | bool => "bool"

/-- The type of a name. -/
def ofLabel? (s : String) : Option ValueType := all.find? (fun t => t.label = s)

/-- The complaint about a name that no type has. -/
def unknownMessage (s : String) : String := Text.untilNul ("Unknown data type: " ++ s)

/-- Two types go together when they are equal or when one of them is `any`. -/
def compatible (a b : ValueType) : Bool := a = any || b = any || a = b

@[simp] theorem ofLabel?_label (t : ValueType) : ofLabel? t.label = some t := by
  cases t <;> decide

theorem compatible_comm (a b : ValueType) : a.compatible b = b.compatible a := by
  cases a <;> cases b <;> rfl

@[simp] theorem compatible_self (a : ValueType) : a.compatible a = true := by
  cases a <;> rfl

end ValueType

/-- What a data pin holds. -/
inductive Value where
  | null
  | int (n : Int64)
  | double (x : Double)
  | string (s : String)
  | bool (b : Bool)
  deriving DecidableEq, Inhabited

namespace Value

/-- Why a value cannot be read as another type. -/
inductive ReadError where
  /-- The null value holds no integer. -/
  | noInteger
  /-- No conversion leads from the type held to the type wanted. -/
  | noConversion (wanted held : ValueType)
  /-- A text that should hold a number of the wanted type does not. -/
  | badNumber (wanted : ValueType) (cause : NumberError)
  deriving DecidableEq, Repr

/-- The wording of a refused reading. -/
def ReadError.message : ReadError → String
  | .noInteger => "Cannot get int from null value"
  | .noConversion wanted held => "Cannot get " ++ wanted.label ++ " from type: " ++ held.label
  | .badNumber .int _ => "stoll"
  | .badNumber _ _ => "stod"

/-- The type of a value; the null value is of every type. -/
def type : Value → ValueType
  | null => .any
  | int _ => .int
  | double _ => .double
  | string _ => .string
  | bool _ => .bool

/-- Is this the null value? -/
def isNull : Value → Bool
  | null => true
  | _ => false

/-- Is this an integer or a double? -/
def isNumeric : Value → Bool
  | int _ | double _ => true
  | _ => false

/-- The integer part of a double in 64 bits; what does not fit becomes the least integer. -/
def truncate (x : Float) : Int64 :=
  match Decimal.truncate? x with
  | some n => if Numeral.fits n then Int64.ofInt n else Int64.minValue
  | none => Int64.minValue

/-- The double nearest to an integer. -/
def widen (n : Int64) : Float := Float.ofInt n.toInt

/-- A value as an integer: doubles lose their fraction, truth values count as one and
zero, and a text is read up to the end of the integer at its front. -/
def asInt : Value → Except ReadError Int64
  | int n => .ok n
  | double x => .ok (truncate x.toFloat)
  | bool b => .ok (if b then 1 else 0)
  | string s =>
    match Numeral.read s.toList with
    | .ok (n, _) => .ok n
    | .error e => .error (.badNumber .int e)
  | null => .error .noInteger

/-- A value as a double: an integer is widened, and a text is read up to the end of the
number at its front. -/
def asDouble : Value → Except ReadError Double
  | double x => .ok x
  | int n => .ok (widen n)
  | string s =>
    match Decimal.Reader.read s.toList with
    | .ok (x, _) => .ok x
    | .error e => .error (.badNumber .double e)
  | v => .error (.noConversion .double v.type)

/-- A value as a text, which only a text is. -/
def asString : Value → Except ReadError String
  | string s => .ok s
  | v => .error (.noConversion .string v.type)

/-- A value as a truth value: an integer is true unless it is zero. -/
def asBool : Value → Except ReadError Bool
  | bool b => .ok b
  | int n => .ok (n ≠ 0)
  | v => .error (.noConversion .bool v.type)

/-- The text shown for a value. Doubles have six significant digits. -/
def text : Value → String
  | null => "null"
  | int n => Numeral.intText n.toInt
  | double x => String.ofList (x.text (Decimal.significant 6))
  | string s => s
  | bool b => if b then "true" else "false"

/-- Do two values agree? Doubles are compared as numbers, so that the two zeros agree and
what is not a number agrees with nothing. -/
def agrees : Value → Value → Bool
  | null, null => true
  | int a, int b => a = b
  | double a, double b => a.agrees b
  | string a, string b => a = b
  | bool a, bool b => a = b
  | _, _ => false

end Value
end Patchbay
