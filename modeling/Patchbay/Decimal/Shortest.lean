import Patchbay.Decimal.Layout
/-!
# Shortest decimal texts

The shortest text of a double has the fewest digits that read back as that double, and of
the numbers with so few digits it is the one nearest to the double.
-/
namespace Patchbay.Decimal
open Numeral (digits)

/-- The numbers that round to `mantissa * 2 ^ exponent`, as an interval between
`low / den` and `high / den` around `mid / den`. The ends belong to it when the mantissa is
even. -/
structure Interval where
  low : Nat
  mid : Nat
  high : Nat
  den : Nat
  closed : Bool

namespace Interval

/-- The interval of a finite double. The gap below a power of two is half as wide. -/
def ofBinary (m : Nat) (e : Int) : Interval :=
  let (u, d) := scale 2 1 4 e
  let below := if m = Nat.pow 2 52 ∧ -1074 < e then u else 2 * u
  { low := 4 * m * u - below, mid := 4 * m * u, high := 4 * m * u + 2 * u, den := d,
    closed := m % 2 = 0 }

/-- Does the point `n / d` belong to the interval? -/
def has (i : Interval) (n d : Nat) : Bool :=
  if i.closed then i.low * d ≤ n * i.den && n * i.den ≤ i.high * d
  else i.low * d < n * i.den && n * i.den < i.high * d

/-- Twice the distance of the point `n / d` from the middle, in units of `1 / (d * den)`. -/
def distance (i : Interval) (n d : Nat) : Nat :=
  let a := n * i.den
  let b := i.mid * d
  if a ≤ b then b - a else a - b

/-- The point of a decimal grid with `count` significant digits that represents the
interval: of the two neighbours of the middle the nearer one inside, the even one of a
tie. The number is the first part divided by the second. -/
def gridPoint? (i : Interval) (first : Int) (count : Nat) : Option (Nat × Nat × Nat) :=
  let shift := (count : Int) - 1 - first
  let (n, d) := scale 10 i.mid i.den shift
  let q := n / d
  let point (q : Nat) : Nat × Nat × Nat := let (a, b) := scale 10 q 1 (-shift); (q, a, b)
  let inside (p : Nat × Nat × Nat) : Bool := i.has p.2.1 p.2.2
  let below := point q
  let above := point (q + 1)
  match inside below, inside above with
  | true, false => some below
  | false, true => some above
  | false, false => none
  | true, true =>
    let x := i.distance below.2.1 below.2.2 * above.2.2
    let y := i.distance above.2.1 above.2.2 * below.2.2
    if x < y then some below
    else if y < x then some above
    else if q % 2 = 0 then some below else some above

end Interval

/-- The digits of the shortest text of a finite double that is not zero, with the exponent
of the first of them. Seventeen digits are always enough. -/
def shortestDigits (m : Nat) (e : Int) : List Char × Int :=
  let i := Interval.ofBinary m e
  let first := leading i.mid i.den
  match (List.range 17).findSome? (fun k => i.gridPoint? first (k + 1) |>.map (k + 1, ·.1)) with
  | some (count, q) =>
    let ds := digits q
    (trimZeros ds, first + (ds.length : Int) - (count : Int))
  | none => significantDigits 17 i.mid i.den

/-- The shortest text of a finite double in a style. -/
def shortest (st : Style) (negative : Bool) (m : Nat) (e : Int) : List Char :=
  let (ds, first) := if m = 0 then (['0'], 0) else shortestDigits m e
  withSign negative (st.layout ds first)

end Patchbay.Decimal
