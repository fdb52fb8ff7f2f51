import Patchbay.Numeral
/-!
# Fresh identifiers

Identifiers have the form of a version 4 UUID. A supply makes them from a seed and a
counter, so that making one is a pure step and the next one is different.
-/
namespace Patchbay

/-- Where fresh identifiers come from. -/
structure IdSupply where
  seed : Nat := 0
  next : Nat := 0
  deriving DecidableEq, Repr

namespace IdSupply

/-- The last `width` hexadecimal digits of a number. -/
def hex : Nat → Nat → List Char
  | 0, _ => []
  | width + 1, n => hex width (n / 16) ++ [Nat.digitChar (n % 16)]

@[simp] theorem length_hex (width n : Nat) : (hex width n).length = width := by
  induction width generalizing n with
  | zero => rfl
  | succ width ih => simp [hex, ih]

/-- The identifier of a seed and a count. -/
def render (seed count : Nat) : String :=
  let part (width place : Nat) : List Char := hex width (seed / Nat.pow 16 place)
  String.ofList (part 8 3 ++ '-' :: part 4 11 ++ '-' :: '4' :: part 3 0 ++ '-' :: '8' ::
    part 3 15 ++ '-' :: hex 12 count)

/-- A fresh identifier and the supply of those after it. -/
def fresh (s : IdSupply) : String × IdSupply :=
  (render s.seed s.next, { s with next := s.next + 1 })

end IdSupply


end Patchbay
