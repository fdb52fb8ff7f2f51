/-!
# Doubles

A double is a floating point number, or what is not a number with a minus. The two kinds of
what is not a number behave alike in all comparisons, and differ in their texts only. An
operation hands on the first operand that is not a number, and answers with the negative
kind where numbers have no result.
-/
namespace Patchbay

/-- A floating point number, or what is not a number with a minus. -/
inductive Double where
  | of (x : Float)
  | minusNaN
  deriving DecidableEq

namespace Double

instance : Coe Float Double := ⟨of⟩

/-- The floating point number, without the sign of what is not a number. -/
def toFloat : Double → Float
  | of x => x
  | minusNaN => Float.ofBits 0x7FF8000000000000

/-- A floating point number that was written with or without a minus. -/
def signed (negative : Bool) (x : Float) : Double :=
  if negative && x.isNaN then minusNaN else of x

/-- The result of an operation on numbers. -/
def ofNumbers (f : Float → Float → Float) (x y : Float) : Double :=
  let r := f x y
  if r.isNaN then minusNaN else of r

/-- An operation on two doubles, from the operation on numbers. -/
def lift (f : Float → Float → Float) : Double → Double → Double
  | minusNaN, _ => minusNaN
  | of x, b =>
    if x.isNaN then of x
    else
      match b with
      | minusNaN => minusNaN
      | of y => if y.isNaN then of y else ofNumbers f x y

instance : Add Double := ⟨lift (· + ·)⟩
instance : Sub Double := ⟨lift (· - ·)⟩
instance : Mul Double := ⟨lift (· * ·)⟩
instance : Div Double := ⟨lift (· / ·)⟩

/-- Is the first double strictly less than the second? -/
def less (a b : Double) : Bool := a.toFloat < b.toFloat

/-- Do two doubles agree as numbers? -/
def agrees (a b : Double) : Bool := a.toFloat == b.toFloat

/-- The text of a double, in a way to write floating point numbers. -/
def text (write : Float → List Char) : Double → List Char
  | of x => write x
  | minusNaN => '-' :: write minusNaN.toFloat

@[simp] theorem toFloat_of (x : Float) : (of x).toFloat = x := rfl

@[simp] theorem lift_minusNaN (f : Float → Float → Float) (b : Double) :
    lift f minusNaN b = minusNaN := rfl

/-- On numbers with a result a lifted operation is the operation itself. -/
theorem lift_of (f : Float → Float → Float) {x y : Float} (hx : x.isNaN = false)
    (hy : y.isNaN = false) (hr : (f x y).isNaN = false) :
    lift f (of x) (of y) = of (f x y) := by
  simp only [lift, ofNumbers, hx, hy, hr, Bool.false_eq_true, if_false]

end Double
end Patchbay
