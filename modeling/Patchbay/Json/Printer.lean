import Patchbay.Json.Basic
import Patchbay.Decimal.Shortest
/-!
# The text of a JSON value

Members are written by ascending key. With an indentation every member and every item has
a line of its own; without one the whole text is a single line without blanks. Doubles have
their shortest digits and always a point or an exponent, and those that JSON has no number
for are written as null.
-/
namespace Patchbay.Json

/-- Doubles are positional from three zeros after the point up to fifteen digits before it. -/
def doubleStyle : Decimal.Style := ⟨-4, 14, true⟩

/-- The text of a double: of the decimals that read back as it, one with the fewest digits. There
are doubles for which other writers find longer decimals, so that equal documents may have unequal
texts elsewhere; what is proved of this text is only that it reads back as the double. -/
def doubleText (x : Float) : String :=
  match Decimal.Binary.decode x with
  | .finite negative m e => String.ofList (Decimal.shortest doubleStyle negative m e)
  | _ => "null"

/-- The digit with a value below sixteen. -/
def hexDigit (n : Nat) : Char := Nat.digitChar n

/-- The characters that stand for a character inside a JSON text. -/
def escape (c : Char) : List Char :=
  if c = '"' then ['\\', '"']
  else if c = '\\' then ['\\', '\\']
  else if c = '\x08' then ['\\', 'b']
  else if c = '\x0c' then ['\\', 'f']
  else if c = '\n' then ['\\', 'n']
  else if c = '\r' then ['\\', 'r']
  else if c = '\t' then ['\\', 't']
  else if c.toNat < 0x20 then
    ['\\', 'u', '0', '0', hexDigit (c.toNat / 16), hexDigit (c.toNat % 16)]
  else [c]

/-- A text in quotes. -/
def quote (s : String) : String :=
  String.ofList ('"' :: (s.toList.flatMap escape ++ ['"']))

/-- What stands between the pieces of an array or an object: how a line at a depth begins,
and what separates a key from its value. -/
structure Spacing where
  /-- Width of one level of indentation; without it there are no line breaks. -/
  indent : Option Nat

namespace Spacing

/-- The beginning of a line at a depth. -/
def newline (sp : Spacing) (depth : Nat) : String :=
  match sp.indent with
  | none => ""
  | some n => String.ofList ('\n' :: List.replicate (n * depth) ' ')

/-- What stands between a key and its value. -/
def colon (sp : Spacing) : String := if sp.indent.isSome then ": " else ":"

end Spacing

mutual

/-- The text of a value at a depth. -/
def write (sp : Spacing) (depth : Nat) : Json → String
  | null => "null"
  | bool b => if b then "true" else "false"
  | int n => Numeral.intText n
  | double x => doubleText x.toFloat
  | string s => quote s
  | array [] => "[]"
  | array (j :: js) =>
    "[" ++ sp.newline (depth + 1) ++ write sp (depth + 1) j ++ writeItems sp (depth + 1) js ++
      sp.newline depth ++ "]"
  | object [] => "\x7b\x7d"
  | object (m :: ms) =>
    "\x7b" ++ sp.newline (depth + 1) ++ writeMember sp (depth + 1) m ++
      writeMembers sp (depth + 1) ms ++ sp.newline depth ++ "\x7d"

/-- The text of the items after the first one. -/
def writeItems (sp : Spacing) (depth : Nat) : List Json → String
  | [] => ""
  | j :: js => "," ++ sp.newline depth ++ write sp depth j ++ writeItems sp depth js

/-- The text of a member. -/
def writeMember (sp : Spacing) (depth : Nat) : String × Json → String
  | (key, j) => quote key ++ sp.colon ++ write sp depth j

/-- The text of the members after the first one. -/
def writeMembers (sp : Spacing) (depth : Nat) : List (String × Json) → String
  | [] => ""
  | m :: ms => "," ++ sp.newline depth ++ writeMember sp depth m ++ writeMembers sp depth ms

end

/-- The text of a value, indented by a number of blanks per level, or on a single line. -/
def print (indent : Option Nat) (j : Json) : String := write ⟨indent⟩ 0 j

end Patchbay.Json
