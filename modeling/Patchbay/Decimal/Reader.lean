import Patchbay.Decimal.Binary
import Patchbay.Double
/-!
# Doubles in text

Reading takes the longest floating point number at the front of a text: after optional
white space and a sign, the words for infinity and for what is not a number, a hexadecimal
number with a binary exponent, or a decimal number. A number that no double comes close to
is out of range: it lies beyond the largest double, or below the normal range and is no
double itself.
-/
namespace Patchbay.Decimal
open Numeral (digits)

/-- The double nearest to `± m * 10 ^ e`. Far outside the range of doubles the power of ten
is not worked out. -/
def nearestDecimal (negative : Bool) (m : Nat) (e : Int) : Binary.Nearest :=
  if m = 0 then Binary.nearest negative 0 1
  else
    let size := ((digits m).length : Int) + e
    if 400 < size then { value := Binary.infinity negative, overflow := true }
    else if size < -400 then { value := Binary.pack negative 0 (-1074), underflow := true }
    else
      let (n, d) := scale 10 m 1 e
      Binary.nearest negative n d

/-- The double nearest to `± m * 2 ^ e`. Far outside the range of doubles the power of two
is not worked out. -/
def nearestHexadecimal (negative : Bool) (m : Nat) (e : Int) : Binary.Nearest :=
  if m = 0 then Binary.nearest negative 0 1
  else
    let size := (m.log2 : Int) + e
    if 1100 < size then { value := Binary.infinity negative, overflow := true }
    else if size < -1200 then { value := Binary.pack negative 0 (-1074), underflow := true }
    else
      let (n, d) := scale 2 m 1 e
      Binary.nearest negative n d

namespace Reader

/-- Take a word off the front of a text, in either case of its letters. -/
def word? : List Char → List Char → Option (List Char)
  | [], s => some s
  | _ :: _, [] => none
  | w :: ws, c :: s => if c.toLower = w then word? ws s else none

/-- Is this a hexadecimal digit? -/
def isHexDigit (c : Char) : Bool :=
  c.isDigit || ('a' ≤ c.toLower && c.toLower ≤ 'f')

/-- The value of a hexadecimal digit. -/
def hexDigit (c : Char) : Nat :=
  if c.isDigit then c.toNat - '0'.toNat else c.toLower.toNat - 'a'.toNat + 10

/-- The number that a list of hexadecimal digits denotes. -/
def ofHexDigits (ds : List Char) : Nat := ds.foldl (fun n c => 16 * n + hexDigit c) 0

/-- Digits with an optional point among them: the digits before it, those after it, and
what follows. There must be at least one digit. -/
def pointed? (isDigit : Char → Bool) (s : List Char) :
    Option (List Char × List Char × List Char) :=
  let whole := s.takeWhile isDigit
  match s.dropWhile isDigit with
  | '.' :: rest =>
    let part := rest.takeWhile isDigit
    if whole.isEmpty && part.isEmpty then none
    else some (whole, part, rest.dropWhile isDigit)
  | rest => if whole.isEmpty then none else some (whole, [], rest)

/-- An optional exponent after a mark. A mark without digits is not taken. -/
def exponent (mark : Char) (s : List Char) : Int × List Char :=
  match s with
  | c :: rest =>
    if c.toLower = mark then
      let (negative, ds) := Numeral.sign rest
      let digits := ds.takeWhile Char.isDigit
      if digits.isEmpty then (0, s)
      else (Numeral.signed negative (Numeral.ofDigits digits), ds.dropWhile Char.isDigit)
    else (0, s)
  | [] => (0, [])

/-- The note that may follow the word for what is not a number: letters, digits and
underscores in brackets. -/
def skipNote (s : List Char) : List Char :=
  match s with
  | '(' :: rest =>
    match rest.dropWhile (fun c => c.isAlphanum || c = '_') with
    | ')' :: after => after
    | _ => s
  | _ => s

/-- A decimal number without a sign. -/
def decimal? (negative : Bool) (s : List Char) : Option (Binary.Nearest × List Char) :=
  (pointed? Char.isDigit s).map fun (whole, part, rest) =>
    let (x, rest) := exponent 'e' rest
    (nearestDecimal negative (Numeral.ofDigits (whole ++ part)) (x - (part.length : Int)), rest)

/-- A hexadecimal number without a sign, after its two leading characters. -/
def hexadecimal? (negative : Bool) (s : List Char) : Option (Binary.Nearest × List Char) :=
  (pointed? isHexDigit s).map fun (whole, part, rest) =>
    let (x, rest) := exponent 'p' rest
    (nearestHexadecimal negative (ofHexDigits (whole ++ part)) (x - 4 * (part.length : Int)), rest)

/-- A number or one of the words, without a sign. -/
def unsigned? (negative : Bool) (s : List Char) : Option (Binary.Nearest × List Char) :=
  match word? ['i', 'n', 'f'] s with
  | some rest =>
    some ({ value := Binary.infinity negative },
      (word? ['i', 'n', 'i', 't', 'y'] rest).getD rest)
  | none =>
    match word? ['n', 'a', 'n'] s with
    | some rest => some ({ value := Binary.notANumber }, skipNote rest)
    | none =>
      match (word? ['0', 'x'] s).bind (hexadecimal? negative) with
      | some r => some r
      | none => decimal? negative s

/-- Read the double at the front of a text; the second part is what follows it. -/
def read (s : List Char) : Except NumberError (Double × List Char) :=
  let (negative, s) := Numeral.sign (s.dropWhile Numeral.isSpace)
  match unsigned? negative s with
  | none => .error .malformed
  | some (x, rest) =>
    if x.overflow || x.underflow then .error .outOfRange
    else .ok (.signed negative x.value, rest)

/-- Read a text that holds a double and nothing after it. -/
def readAll (s : List Char) : Except NumberError Double :=
  match read s with
  | .ok (x, []) => .ok x
  | .ok (_, _ :: _) => .error .malformed
  | .error e => .error e

end Reader
end Patchbay.Decimal
