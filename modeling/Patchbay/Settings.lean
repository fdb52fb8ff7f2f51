import Patchbay.Dict
import Patchbay.Decimal.Reader
import Patchbay.Text
/-!
# Settings

Settings are texts under keys. In a settings text each line of the form `key = value`
contributes one entry and the last line of a key counts; blank lines, lines whose first
character is `#` and lines without `=` contribute nothing. The typed accessors accept a
value only as a whole.
-/
namespace Patchbay

/-- Why a setting cannot be used. -/
inductive SettingsError where
  | notInteger (key value : String)
  | notNumber (key value : String)
  | notBoolean (key value : String)
  /-- A count is less than zero. -/
  | negative (key : String)
  /-- There is no readable file under the path. -/
  | unreadable (path : String)
  deriving DecidableEq, Repr

/-- The wording of a settings error. -/
def SettingsError.message (e : SettingsError) : String :=
  Text.untilNul <| match e with
    | .notInteger key value => "Config key '" ++ key ++ "' is not an integer: " ++ value
    | .notNumber key value => "Config key '" ++ key ++ "' is not a number: " ++ value
    | .notBoolean key value => "Config key '" ++ key ++ "' is not a boolean: " ++ value
    | .negative key => "Config key '" ++ key ++ "' must not be negative"
    | .unreadable path => "Cannot open config file: " ++ path

/-- Texts under keys. -/
structure Settings where
  values : Dict String := .empty

namespace Settings

/-- Blank or tab, the characters that are trimmed in front. -/
def isBlank (c : Char) : Bool := c = ' ' || c = '\t'

/-- The characters that are trimmed at the end: blanks and line breaks. -/
def isTail (c : Char) : Bool := isBlank c || c = '\r' || c = '\n'

/-- A text without the blanks around it. -/
def trim (s : List Char) : List Char :=
  ((s.reverse.dropWhile isTail).reverse).dropWhile isBlank

/-- The entry that a line contributes. -/
def entry? (line : List Char) : Option (String × String) :=
  let line := trim line
  if line.head? = some '#' then none
  else
    match line.dropWhile (· ≠ '=') with
    | [] => none
    | _ :: value =>
      let key := trim (line.takeWhile (· ≠ '='))
      if key.isEmpty then none else some (String.ofList key, String.ofList (trim value))

/-- Put a value under a key. -/
def set (s : Settings) (key value : String) : Settings := ⟨s.values.insert key value⟩

/-- The settings of a text. -/
def parse (text : String) : Settings :=
  ⟨Dict.ofList ((Text.lines text.toList).filterMap entry?)⟩

/-- The text under a key. -/
def get? (s : Settings) (key : String) : Option String := s.values.get? key

/-- Is there a text under the key? -/
def has (s : Settings) (key : String) : Bool := s.values.has key

/-- The number of keys. -/
def size (s : Settings) : Nat := s.values.size

/-- The text under a key, or a fallback. -/
def getString (s : Settings) (key : String) (fallback : String) : String :=
  (s.get? key).getD fallback

/-- The integer under a key, or a fallback if there is no such key. -/
def getInt (s : Settings) (key : String) (fallback : Int64) : Except SettingsError Int64 :=
  match s.get? key with
  | none => .ok fallback
  | some value =>
    match Numeral.readAll value.toList with
    | .ok n => .ok n
    | .error _ => .error (.notInteger key value)

/-- The double under a key, or a fallback if there is no such key. -/
def getDouble (s : Settings) (key : String) (fallback : Float) : Except SettingsError Float :=
  match s.get? key with
  | none => .ok fallback
  | some value =>
    match Decimal.Reader.readAll value.toList with
    | .ok x => .ok x.toFloat
    | .error _ => .error (.notNumber key value)

/-- The truth value that a word stands for, in either case of its letters. -/
def truth? (word : String) : Option Bool :=
  let word := String.ofList (word.toList.map Char.toLower)
  if word ∈ ["true", "yes", "on", "1"] then some true
  else if word ∈ ["false", "no", "off", "0"] then some false
  else none

/-- The truth value under a key, or a fallback if there is no such key. -/
def getBool (s : Settings) (key : String) (fallback : Bool) : Except SettingsError Bool :=
  match s.get? key with
  | none => .ok fallback
  | some value =>
    match truth? value with
    | some b => .ok b
    | none => .error (.notBoolean key value)

/-- The count under a key, or a fallback if there is no such key. -/
def getCount (s : Settings) (key : String) (fallback : Nat) : Except SettingsError Nat := do
  let n ← s.getInt key (Int64.ofNat fallback)
  if n < 0 then .error (.negative key) else .ok n.toInt.toNat

@[simp] theorem get?_set_self (s : Settings) (key value : String) :
    (s.set key value).get? key = some value := by
  simp [set, get?]

theorem get?_set_of_ne (s : Settings) {j key : String} (h : j ≠ key) (value : String) :
    (s.set key value).get? j = s.get? j := by
  simp [set, get?, Dict.get?_insert_of_ne _ h]

end Settings
end Patchbay
