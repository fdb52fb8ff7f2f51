import Patchbay.Decimal.Binary
/-!
# Writing digits with a decimal point

A number is given by its digits and by the exponent of the first of them. A `Style` says
which numbers are written positionally and which with an exponent.
-/
namespace Patchbay.Decimal
open Numeral (digits)

/-- The decisions of a number format. -/
structure Style where
  /-- Least exponent of a first digit that is written positionally. -/
  least : Int
  /-- Greatest exponent of a first digit that is written positionally. -/
  greatest : Int
  /-- Does a positional number always have a digit after the point? -/
  pointed : Bool
  deriving DecidableEq, Repr

/-- A sign in front of a text. -/
def withSign (negative : Bool) (s : List Char) : List Char := if negative then '-' :: s else s

/-- Digits without the zeros at the end, of which the first digit stays. -/
def trimZeros (ds : List Char) : List Char :=
  match (ds.reverse.dropWhile (· = '0')).reverse with
  | [] => ['0']
  | ds => ds

/-- An exponent with its sign and at least two digits. -/
def exponentText (x : Int) : List Char :=
  let ds := digits x.natAbs
  (if x < 0 then '-' else '+') :: (if ds.length < 2 then '0' :: ds else ds)

/-- Digits of which the first has the exponent `x`, with the decimal point in place. -/
def positional (pointed : Bool) (ds : List Char) (x : Int) : List Char :=
  if x < 0 then '0' :: '.' :: (List.replicate (-x - 1).toNat '0' ++ ds)
  else
    let whole := x.toNat + 1
    let front := ds.take whole ++ List.replicate (whole - ds.length) '0'
    match ds.drop whole with
    | [] => if pointed then front ++ ['.', '0'] else front
    | rest => front ++ '.' :: rest

/-- Digits of which the first has the exponent `x`, written with an exponent. -/
def scientific (ds : List Char) (x : Int) : List Char :=
  match ds with
  | [] => []
  | [d] => d :: 'e' :: exponentText x
  | d :: rest => d :: '.' :: (rest ++ 'e' :: exponentText x)

/-- Write digits of which the first has the exponent `x`. -/
def Style.layout (st : Style) (ds : List Char) (x : Int) : List Char :=
  if st.least ≤ x ∧ x ≤ st.greatest then positional st.pointed ds x else scientific ds x

/-- The digits of `num / den` to a number of significant places, with the exponent of the
first of them. The fraction must not be zero. -/
def significantDigits (places num den : Nat) : List Char × Int :=
  let x := leading num den
  let (n, d) := scale 10 num den ((places : Int) - 1 - x)
  let r := roundDiv n d
  if r = Nat.pow 10 places then (digits (Nat.pow 10 (places - 1)), x + 1) else (digits r, x)

/-- A double to a number of significant places, without zeros at the end: positional from
the fourth place after the point up to as many digits as there are places. -/
def significant (places : Nat) (x : Float) : List Char :=
  match Binary.decode x with
  | .nan => ['n', 'a', 'n']
  | .infinite negative => withSign negative ['i', 'n', 'f']
  | .finite negative 0 _ => withSign negative ['0']
  | .finite negative m e =>
    let (n, d) := Binary.fraction m e
    let (ds, first) := significantDigits places n d
    withSign negative (Style.layout ⟨-4, (places : Int) - 1, false⟩ (trimZeros ds) first)

/-- A double with a fixed number of places after the point. -/
def fixed (places : Nat) (x : Float) : List Char :=
  match Binary.decode x with
  | .nan => ['n', 'a', 'n']
  | .infinite negative => withSign negative ['i', 'n', 'f']
  | .finite negative m e =>
    let (n, d) := Binary.fraction m e
    let ds := digits (roundDiv (n * Nat.pow 10 places) d)
    let ds := List.replicate (places + 1 - ds.length) '0' ++ ds
    let whole := ds.length - places
    withSign negative (ds.take whole ++ (if places = 0 then [] else '.' :: ds.drop whole))

end Patchbay.Decimal
