/-!
# Integers in text

Reading takes the longest integer at the front of a text and hands back what follows it:
optional white space, an optional sign and decimal digits, within the 64-bit range.
-/
namespace Patchbay

/-- Why a text does not begin with a number of the wanted kind. -/
inductive NumberError where
  /-- There is no digit where a number should begin. -/
  | malformed
  /-- The number has no place in the wanted type. -/
  | outOfRange
  deriving DecidableEq, Repr

namespace Numeral

/-- The white space that may stand before a number: blank, tab, line feed, vertical tab,
form feed and carriage return. -/
def isSpace (c : Char) : Bool := c = ' ' || ('\t' ≤ c && c ≤ '\r')

/-- Split an optional sign off the front; `true` stands for a minus. -/
def sign : List Char → Bool × List Char
  | '-' :: s => (true, s)
  | '+' :: s => (false, s)
  | s => (false, s)

/-- The number that a list of decimal digits denotes. -/
def ofDigits (ds : List Char) : Nat := ds.foldl (fun n c => 10 * n + (c.toNat - '0'.toNat)) 0

/-- The decimal digits of a number, most significant first. -/
def digits (n : Nat) : List Char := Nat.toDigits 10 n

/-- The text of an integer: its digits, after a minus if it is negative. -/
def write (n : Int) : List Char := if n < 0 then '-' :: digits n.natAbs else digits n.natAbs

/-- The text of a natural number. -/
def natText (n : Nat) : String := String.ofList (digits n)

/-- The text of an integer. -/
def intText (n : Int) : String := String.ofList (write n)

/-- A magnitude with its sign. -/
def signed (negative : Bool) (n : Nat) : Int := if negative then -(n : Int) else n

/-- Does an integer fit in 64 bits? -/
def fits (n : Int) : Bool := Int64.minValue.toInt ≤ n && n ≤ Int64.maxValue.toInt

/-- Read the integer at the front of a text; the second part is what follows it. -/
def read (s : List Char) : Except NumberError (Int64 × List Char) :=
  let (negative, s) := sign (s.dropWhile isSpace)
  let ds := s.takeWhile Char.isDigit
  if ds.isEmpty then .error .malformed
  else
    let n := signed negative (ofDigits ds)
    if fits n then .ok (Int64.ofInt n, s.dropWhile Char.isDigit) else .error .outOfRange

/-- Read a text that holds an integer and nothing after it. -/
def readAll (s : List Char) : Except NumberError Int64 :=
  match read s with
  | .ok (n, []) => .ok n
  | .ok (_, _ :: _) => .error .malformed
  | .error e => .error e

theorem ofDigits_nil : ofDigits [] = 0 := rfl

theorem ofDigits_append_singleton (ds : List Char) (c : Char) :
    ofDigits (ds ++ [c]) = 10 * ofDigits ds + (c.toNat - '0'.toNat) := by
  simp [ofDigits]

end Numeral
end Patchbay
