import Patchbay.Numeral
/-!
# Rounding to the nearest integer

Decimal texts of binary numbers, and binary numbers read from decimal texts, are both
made by one rule: a quotient of natural numbers is replaced by the nearest natural
number, and a half goes to the even neighbour.
-/
namespace Patchbay.Decimal
open Numeral (digits)

/-- The natural number nearest to `num / den`; a half goes to the even neighbour. -/
def roundDiv (num den : Nat) : Nat :=
  let q := num / den
  let r := num % den
  if 2 * r < den then q
  else if 2 * r > den then q + 1
  else if q % 2 = 0 then q else q + 1

/-- The nearest natural number is at most half a unit away. -/
theorem roundDiv_near (num : Nat) {den : Nat} (h : 0 < den) :
    2 * num ≤ 2 * (den * roundDiv num den) + den ∧
      2 * (den * roundDiv num den) ≤ 2 * num + den := by
  have hq := Nat.div_add_mod num den
  have hr := Nat.mod_lt num h
  simp only [roundDiv]
  generalize num / den = q at *
  generalize num % den = r at *
  have hs : den * (q + 1) = den * q + den := Nat.mul_succ den q
  split
  · omega
  · split
    · omega
    · split <;> omega

/-- An exact quotient is kept. -/
theorem roundDiv_mul (q : Nat) {den : Nat} (h : 0 < den) : roundDiv (q * den) den = q := by
  simp [roundDiv, Nat.mul_div_cancel q h, h]

/-- The quotient `num / den` scaled by a power of `base`, with a numerator and a
denominator that are both natural numbers. -/
def scale (base num den : Nat) (e : Int) : Nat × Nat :=
  if 0 ≤ e then (num * Nat.pow base e.toNat, den) else (num, den * Nat.pow base (-e).toNat)

/-- The exponent of the first decimal digit of `num / den`: the `x` with
`10 ^ x ≤ num / den < 10 ^ (x + 1)`, for a quotient that is not zero. -/
def leading (num den : Nat) : Int :=
  if den ≤ num then ((digits (num / den)).length : Int) - 1
  else
    let l := (digits (den / num)).length
    if den ≤ num * Nat.pow 10 (l - 1) then 1 - (l : Int) else -(l : Int)

end Patchbay.Decimal
