import Patchbay.Decimal.Rounding
/-!
# Binary floating point numbers as fractions

A finite double is a signed natural number times a power of two. `decode` takes a double
apart that way, and `nearest` makes the double closest to a fraction.
-/
namespace Patchbay.Decimal

/-- What a double stands for. -/
inductive Binary where
  | nan
  | infinite (negative : Bool)
  /-- The number `± mantissa * 2 ^ exponent`. -/
  | finite (negative : Bool) (mantissa : Nat) (exponent : Int)
  deriving DecidableEq, Repr

namespace Binary

/-- Take a double apart. The mantissa has at most 53 bits. -/
def decode (x : Float) : Binary :=
  let bits := x.toBits.toNat
  let negative : Bool := Nat.pow 2 63 ≤ bits
  let e : Nat := bits / Nat.pow 2 52 % Nat.pow 2 11
  let m : Nat := bits % Nat.pow 2 52
  if e = 2047 then if m = 0 then .infinite negative else .nan
  else if e = 0 then .finite negative m (-1074)
  else .finite negative (m + Nat.pow 2 52) ((e : Int) - 1075)

/-- The magnitude of a finite double as a fraction. -/
def fraction (mantissa : Nat) (exponent : Int) : Nat × Nat := scale 2 mantissa 1 exponent

/-- The exponent for which `num / den` has a 53 bit integer part, up to one. -/
def roughExponent (num den : Nat) : Int := (num.log2 : Int) - (den.log2 : Int) - 52

/-- Round `num / den` to 53 significant bits: the integer part and its exponent. The
fraction must not be zero. The integer part may be the power of two above 53 bits. -/
def round53 (num den : Nat) : Nat × Int :=
  let e := roughExponent num den
  let (n, d) := scale 2 num den (-e)
  if n / d < Nat.pow 2 52 then
    let (n, d) := scale 2 num den (1 - e)
    (roundDiv n d, e - 1)
  else (roundDiv n d, e)

/-- The double nearest to a fraction, with the two ways in which it may miss it badly. -/
structure Nearest where
  value : Float
  /-- The fraction lies beyond the largest double. -/
  overflow : Bool := false
  /-- The fraction lies below the normal range and no double equals it. -/
  underflow : Bool := false

/-- The double with a sign, an integer part of at most 53 bits and an exponent that is at
least `-1074`. -/
def pack (negative : Bool) (m : Nat) (e : Int) : Float :=
  let unit := Nat.pow 2 52
  let magnitude := if m < unit then m else (e + 1075).toNat * unit + (m - unit)
  Float.ofBits (UInt64.ofNat (magnitude + if negative then Nat.pow 2 63 else 0))

/-- The infinity of a sign. -/
def infinity (negative : Bool) : Float :=
  Float.ofBits (if negative then 0xFFF0000000000000 else 0x7FF0000000000000)

/-- The double that is not a number. -/
def notANumber : Float := Float.ofBits 0x7FF8000000000000

/-- The double nearest to `± num / den`; a half goes to the even neighbour. -/
def nearest (negative : Bool) (num den : Nat) : Nearest :=
  if num = 0 then { value := pack negative 0 (-1074) }
  else
    let (m, e) := round53 num den
    let (m, e) := if m = Nat.pow 2 53 then (Nat.pow 2 52, e + 1) else (m, e)
    if 971 < e then { value := infinity negative, overflow := true }
    else if -1074 ≤ e then { value := pack negative m e }
    else
      let (n, d) := scale 2 num den 1074
      let m := roundDiv n d
      { value := pack negative m (-1074), underflow := m * d ≠ n }

end Binary

/-- The integer part of a double, without its fraction; none for an infinity and for what
is not a number. -/
def truncate? (x : Float) : Option Int :=
  match Binary.decode x with
  | .finite negative m e =>
    let (n, d) := Binary.fraction m e
    some (if negative then -((n / d : Nat) : Int) else (n / d : Nat))
  | _ => none

end Patchbay.Decimal
