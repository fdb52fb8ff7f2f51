import Patchbay.Json.Basic
/-!
# Reading JSON

The grammar is the strict one: no comments, no trailing commas, no leading zeros, no
control characters inside texts and no lone surrogates. A byte order mark in front is
skipped. A number without fraction and exponent is an integer, provided that it has a place
in 64 bits with or without a sign; every other number is a double, and one that no double
comes close to is refused.
-/
namespace Patchbay.Json

/-- Why a text is not JSON. -/
inductive ParseError where
  | unexpectedEnd
  | unexpected (c : Char)
  | controlCharacter
  | badEscape
  | loneSurrogate
  /-- A number lies beyond the largest double. -/
  | tooLarge
  /-- Something follows the value. -/
  | trailing
  deriving DecidableEq, Repr

/-- The wording of a parse error. -/
def ParseError.message : ParseError → String
  | .unexpectedEnd => "unexpected end of input"
  | .unexpected c => "unexpected character " ++ String.singleton c
  | .controlCharacter => "control character in a string"
  | .badEscape => "invalid escape in a string"
  | .loneSurrogate => "lone surrogate in a string"
  | .tooLarge => "number out of range"
  | .trailing => "unexpected text after the value"

namespace Parser

/-- The white space between the parts of a text. -/
def isSpace (c : Char) : Bool := c = ' ' || c = '\t' || c = '\n' || c = '\r'

/-- A text without the white space in front. -/
def skip (s : List Char) : List Char := s.dropWhile isSpace

/-- The error at the front of a text. -/
def fail {α : Type} : List Char → Except ParseError α
  | [] => .error .unexpectedEnd
  | c :: _ => .error (.unexpected c)

/-- Take a word off the front of a text. -/
def expect : List Char → List Char → Except ParseError (List Char)
  | [], s => .ok s
  | w :: ws, c :: s => if w = c then expect ws s else fail (c :: s)
  | _ :: _, [] => fail []

/-- The value of a hexadecimal digit. -/
def hexValue? (c : Char) : Option Nat :=
  if c.isDigit then some (c.toNat - '0'.toNat)
  else if 'a' ≤ c ∧ c ≤ 'f' then some (c.toNat - 'a'.toNat + 10)
  else if 'A' ≤ c ∧ c ≤ 'F' then some (c.toNat - 'A'.toNat + 10)
  else none

/-- Four hexadecimal digits. -/
def unit : List Char → Except ParseError (Nat × List Char)
  | a :: b :: c :: d :: s =>
    match hexValue? a, hexValue? b, hexValue? c, hexValue? d with
    | some a, some b, some c, some d => .ok (((a * 16 + b) * 16 + c) * 16 + d, s)
    | _, _, _, _ => .error .badEscape
  | _ => .error .unexpectedEnd

/-- Is this the first half of a surrogate pair? -/
def isHigh (n : Nat) : Bool := 0xD800 ≤ n && n ≤ 0xDBFF

/-- Is this the second half of a surrogate pair? -/
def isLow (n : Nat) : Bool := 0xDC00 ≤ n && n ≤ 0xDFFF

/-- The character of an escape by number, after its mark. -/
def numbered (s : List Char) : Except ParseError (Char × List Char) := do
  let (high, s) ← unit s
  if isHigh high then
    match s with
    | '\\' :: 'u' :: s =>
      let (low, s) ← unit s
      if isLow low then .ok (Char.ofNat (0x10000 + (high - 0xD800) * 0x400 + (low - 0xDC00)), s)
      else .error .loneSurrogate
    | _ => .error .loneSurrogate
  else if isLow high then .error .loneSurrogate
  else .ok (Char.ofNat high, s)

/-- The character of an escape, after the backslash. -/
def escaped : List Char → Except ParseError (Char × List Char)
  | '"' :: s => .ok ('"', s)
  | '\\' :: s => .ok ('\\', s)
  | '/' :: s => .ok ('/', s)
  | 'b' :: s => .ok ('\x08', s)
  | 'f' :: s => .ok ('\x0c', s)
  | 'n' :: s => .ok ('\n', s)
  | 'r' :: s => .ok ('\r', s)
  | 't' :: s => .ok ('\t', s)
  | 'u' :: s => numbered s
  | [] => .error .unexpectedEnd
  | _ => .error .badEscape

/-- The rest of a quoted text up to its closing quote. Every round takes at least one
character, so that as many rounds as there are characters are enough. -/
def quoted : Nat → List Char → List Char → Except ParseError (String × List Char)
  | 0, _, s => fail s
  | rounds + 1, taken, s =>
    match s with
    | [] => .error .unexpectedEnd
    | '"' :: s => .ok (String.ofList taken.reverse, s)
    | '\\' :: s => do
      let (c, s) ← escaped s
      quoted rounds (c :: taken) s
    | c :: s => if c.toNat < 0x20 then .error .controlCharacter else quoted rounds (c :: taken) s

/-- A text in quotes, after the opening quote. -/
def string (s : List Char) : Except ParseError (String × List Char) := quoted (s.length + 1) [] s

/-- One or more digits. -/
def digits (s : List Char) : Except ParseError (List Char × List Char) :=
  let ds := s.takeWhile Char.isDigit
  let rest := s.dropWhile Char.isDigit
  if ds.isEmpty then fail rest else .ok (ds, rest)

/-- The digits before the point: a zero alone, or digits that begin with another one. -/
def whole : List Char → Except ParseError (List Char × List Char)
  | '0' :: s => .ok (['0'], s)
  | s => digits s

/-- An optional point with digits after it. -/
def fraction : List Char → Except ParseError (Option (List Char) × List Char)
  | '.' :: s => do
    let (ds, s) ← digits s
    .ok (some ds, s)
  | s => .ok (none, s)

/-- An optional exponent. -/
def exponent : List Char → Except ParseError (Option Int × List Char)
  | c :: s =>
    if c = 'e' ∨ c = 'E' then do
      let (negative, s) := Numeral.sign s
      let (ds, s) ← digits s
      .ok (some (Numeral.signed negative (Numeral.ofDigits ds)), s)
    else .ok (none, c :: s)
  | [] => .ok (none, [])

/-- Does an integer have a place in 64 bits, with or without a sign? -/
def hasPlace (n : Int) : Bool := Int64.minValue.toInt ≤ n && n < (UInt64.size : Int)

/-- The number of a sign, the digits before and after the point, and an exponent. -/
def makeNumber (negative : Bool) (ds : List Char) (part : Option (List Char)) (x : Option Int) :
    Except ParseError Json :=
  let n := Numeral.signed negative (Numeral.ofDigits ds)
  if part.isNone && x.isNone && hasPlace n then .ok (.int n)
  else
    let after := part.getD []
    let r := Decimal.nearestDecimal negative (Numeral.ofDigits (ds ++ after))
      (x.getD 0 - (after.length : Int))
    if r.overflow then .error .tooLarge else .ok (.double r.value)

/-- A number. -/
def number (s : List Char) : Except ParseError (Json × List Char) := do
  let (negative, s) := match s with
    | '-' :: s => (true, s)
    | s => (false, s)
  let (ds, s) ← whole s
  let (part, s) ← fraction s
  let (x, s) ← exponent s
  .ok (← makeNumber negative ds part x, s)

mutual

/-- A value. Every round takes at least one character off the text, so that as many rounds
as there are characters are enough. -/
def value : Nat → List Char → Except ParseError (Json × List Char)
  | 0, s => fail s
  | rounds + 1, s =>
    match skip s with
    | '\x7b' :: s =>
      match skip s with
      | '\x7d' :: s => .ok (.object [], s)
      | s => members rounds [] s
    | '[' :: s =>
      match skip s with
      | ']' :: s => .ok (.array [], s)
      | s => items rounds [] s
    | '"' :: s => do
      let (t, s) ← string s
      .ok (.string t, s)
    | 't' :: s => do .ok (.bool true, ← expect ['r', 'u', 'e'] s)
    | 'f' :: s => do .ok (.bool false, ← expect ['a', 'l', 's', 'e'] s)
    | 'n' :: s => do .ok (.null, ← expect ['u', 'l', 'l'] s)
    | s => number s

/-- The items of an array up to its end. -/
def items : Nat → List Json → List Char → Except ParseError (Json × List Char)
  | 0, _, s => fail s
  | rounds + 1, taken, s => do
    let (j, s) ← value rounds s
    match skip s with
    | ',' :: s => items rounds (j :: taken) s
    | ']' :: s => .ok (.array (j :: taken).reverse, s)
    | s => fail s

/-- The members of an object up to its end. -/
def members : Nat → List (String × Json) → List Char → Except ParseError (Json × List Char)
  | 0, _, s => fail s
  | rounds + 1, taken, s =>
    match skip s with
    | '"' :: s => do
      let (key, s) ← string s
      match skip s with
      | ':' :: s => do
        let (j, s) ← value rounds s
        match skip s with
        | ',' :: s => members rounds ((key, j) :: taken) s
        | '\x7d' :: s => .ok (.ofMembers ((key, j) :: taken).reverse, s)
        | s => fail s
      | s => fail s
    | s => fail s

end

end Parser

/-- A text without the byte order mark in front. -/
def withoutMark : List Char → List Char
  | '\ufeff' :: s => s
  | s => s

/-- Read a text that holds one JSON value and nothing else. -/
def parse (text : String) : Except ParseError Json := do
  let s := withoutMark text.toList
  let (j, rest) ← Parser.value (2 * s.length + 1) s
  if (Parser.skip rest).isEmpty then .ok j else .error .trailing

end Patchbay.Json
