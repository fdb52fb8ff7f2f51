/-!
# Points and rectangles on the canvas

Everything here is stated for any scalar with an order and arithmetic, and is run with
doubles. The greater and the lesser of two scalars are chosen by one strict comparison, so
that with an incomparable scalar the first one stays.
-/
namespace Patchbay

/-- A scalar that the canvas can be measured with. -/
class Scalar (K : Type) extends Add K, Sub K where
  zero : K
  /-- Is the first scalar strictly less than the second? -/
  lt : K → K → Bool
  /-- Is the first scalar less than or equal to the second? -/
  le : K → K → Bool
  /-- Do two scalars agree? -/
  eq : K → K → Bool

instance : Scalar Float where
  zero := 0
  lt a b := a < b
  le a b := a ≤ b
  eq a b := a == b

namespace Scalar
variable {K : Type} [Scalar K]

/-- The greater of two scalars; the first one unless the second is strictly greater. -/
def greater (a b : K) : K := if lt a b then b else a

/-- The lesser of two scalars; the first one unless the second is strictly less. -/
def lesser (a b : K) : K := if lt b a then b else a

end Scalar

open Scalar (zero lt le eq greater lesser)

/-- A place on the canvas. -/
structure Point (K : Type) where
  x : K
  y : K
  deriving DecidableEq, Repr

/-- An extent on the canvas. -/
structure Size (K : Type) where
  width : K
  height : K
  deriving DecidableEq, Repr

/-- A rectangle with sides along the axes, given by its top left corner and its extent. -/
structure Rect (K : Type) where
  x : K
  y : K
  width : K
  height : K
  deriving DecidableEq, Repr

variable {K : Type} [Scalar K]

namespace Point

/-- The top left end of the canvas. -/
def origin : Point K := ⟨zero, zero⟩

/-- The point moved by an offset. -/
def translate (p : Point K) (dx dy : K) : Point K := ⟨p.x + dx, p.y + dy⟩

/-- Do two points agree in both coordinates? -/
def agrees (p q : Point K) : Bool := eq p.x q.x && eq p.y q.y

end Point

namespace Rect

/-- The rectangle without extent at the origin. -/
def nothing : Rect K := ⟨zero, zero, zero, zero⟩

/-- A rectangle of a size at a place. -/
def place (p : Point K) (s : Size K) : Rect K := ⟨p.x, p.y, s.width, s.height⟩

/-- The top left corner. -/
def corner (r : Rect K) : Point K := ⟨r.x, r.y⟩

/-- The coordinate of the right edge. -/
def right (r : Rect K) : K := r.x + r.width

/-- The coordinate of the bottom edge. -/
def bottom (r : Rect K) : K := r.y + r.height

/-- Do two rectangles agree in place and extent? -/
def agrees (a b : Rect K) : Bool :=
  eq a.x b.x && eq a.y b.y && eq a.width b.width && eq a.height b.height

/-- Does the first rectangle hold the second one, edges included? -/
def contains (outer inner : Rect K) : Bool :=
  le outer.x inner.x && le outer.y inner.y &&
    le inner.right outer.right && le inner.bottom outer.bottom

/-- Does the rectangle hold a point, edges included? -/
def containsPoint (r : Rect K) (p : Point K) : Bool :=
  le r.x p.x && le r.y p.y && le p.x r.right && le p.y r.bottom

/-- Do two rectangles share an area that is not empty? -/
def intersects (a b : Rect K) : Bool :=
  lt a.x b.right && lt b.x a.right && lt a.y b.bottom && lt b.y a.bottom

/-- The rectangle grown on every side; its extent never becomes negative. -/
def inflate (r : Rect K) (amount : K) : Rect K :=
  ⟨r.x - amount, r.y - amount, greater zero (r.width + (amount + amount)),
    greater zero (r.height + (amount + amount))⟩

/-- The rectangle between two corners; its extent never becomes negative. -/
def span (minX minY maxX maxY : K) : Rect K :=
  ⟨minX, minY, greater zero (maxX - minX), greater zero (maxY - minY)⟩

/-- The smallest rectangle that holds `bounds` and `inner` grown by `padding`. -/
def expandToInclude (bounds inner : Rect K) (padding : K) : Rect K :=
  span (lesser bounds.x (inner.x - padding)) (lesser bounds.y (inner.y - padding))
    (greater bounds.right (inner.right + padding)) (greater bounds.bottom (inner.bottom + padding))

/-- The top left corner that keeps `inner` inside `outer`, as near as possible to where it
is. What is wider or higher than `outer` sticks to the left or to the top. -/
def clampInside (outer inner : Rect K) : Point K :=
  ⟨greater outer.x (lesser inner.x (outer.right - inner.width)),
    greater outer.y (lesser inner.y (outer.bottom - inner.height))⟩

/-- The rectangle moved by an offset. -/
def translate (r : Rect K) (dx dy : K) : Rect K := ⟨r.x + dx, r.y + dy, r.width, r.height⟩

@[simp] theorem width_translate (r : Rect K) (dx dy : K) :
    (r.translate dx dy).width = r.width := rfl

@[simp] theorem height_translate (r : Rect K) (dx dy : K) :
    (r.translate dx dy).height = r.height := rfl

omit [Scalar K] in
@[simp] theorem corner_place (p : Point K) (s : Size K) : (place p s).corner = p := rfl

/-- Where something of a size goes that is wanted at a place, and the bounds afterwards. A
place inside the bounds is granted. Otherwise the bounds grow, or the place moves inside. -/
def accommodate (bounds : Rect K) (size : Size K) (wanted : Point K) (grow : Bool) (padding : K) :
    Point K × Rect K :=
  let r := place wanted size
  if bounds.contains r then (wanted, bounds)
  else if grow then (wanted, bounds.expandToInclude r padding)
  else (bounds.clampInside r, bounds)

/-- The tight bounding box of some rectangles of doubles, grown by `padding`; nothing for
none. -/
def bounding (rects : List (Rect Float)) (padding : Float) : Rect Float :=
  if rects.isEmpty then nothing
  else
    let far : Float := 1 / 0
    let minX := rects.foldl (fun m (r : Rect Float) => lesser m r.x) far
    let minY := rects.foldl (fun m (r : Rect Float) => lesser m r.y) far
    let maxX := rects.foldl (fun m (r : Rect Float) => greater m r.right) (-far)
    let maxY := rects.foldl (fun m (r : Rect Float) => greater m r.bottom) (-far)
    span (minX - padding) (minY - padding) (maxX + padding) (maxY + padding)

end Rect
end Patchbay
