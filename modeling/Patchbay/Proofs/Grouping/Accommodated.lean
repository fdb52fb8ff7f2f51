import Mathlib.Algebra.Order.Field.Rat
import Mathlib.Tactic.Linarith
import Patchbay.Layout
/-!
# Nodes that find their place in a group

A node that is wanted at a place gets it, and the group grows around the node there, or the node
goes to the nearest place inside the group. Either way it has come to rest: asked for again, the
place is granted and nothing changes.

The places are reckoned here with rational numbers, so that no sum is rounded.

## Main definitions

* `Rect.Holds`: one rectangle lies in another, edges included.
* `Rect.Nearest`: the coordinate between two others that is nearest to the one wanted.

## Main statements

* `Rect.accommodate_keep`: how a place is found in bounds that do not grow.
* `Rect.accommodate_settled`: where a node goes, and that it stays there.
-/
namespace Patchbay

/-- Rational numbers measure the canvas without rounding. -/
instance : Scalar ℚ where
  zero := 0
  lt a b := a < b
  le a b := a ≤ b
  eq a b := a = b

namespace Scalar

theorem greater_eq_max (a b : ℚ) : greater a b = max a b := by
  by_cases h : a < b
  · simp [greater, lt, h, h.le]
  · simp [greater, lt, h, not_lt.1 h]

theorem lesser_eq_min (a b : ℚ) : lesser a b = min a b := by
  by_cases h : b < a
  · simp [lesser, lt, h, h.le]
  · simp [lesser, lt, h, not_lt.1 h]

end Scalar

namespace Rect
open Scalar (greater_eq_max lesser_eq_min)

/-! ### Coordinates -/

/-- A coordinate lies between two others, and no other one there is as near to the one wanted. -/
structure Nearest (low high wanted x : ℚ) : Prop where
  low_le : low ≤ x
  le_high : x ≤ high
  nearer : ∀ y, low ≤ y → y ≤ high → y ≠ x → |x - wanted| < |y - wanted|

variable {low high x : ℚ}

theorem clamp_of_between (hlow : low ≤ x) (hhigh : x ≤ high) : max low (min x high) = x := by
  rw [min_eq_left hhigh, max_eq_right hlow]

theorem nearest_clamp (h : low ≤ high) (wanted : ℚ) :
    Nearest low high wanted (max low (min wanted high)) := by
  refine ⟨le_max_left _ _, max_le h (min_le_right _ _), fun y hlow hhigh hy => ?_⟩
  rcases lt_or_ge wanted low with hwanted | hwanted
  · have hx : max low (min wanted high) = low :=
      max_eq_left ((min_le_left _ _).trans hwanted.le)
    rw [hx] at hy ⊢
    have hlt : low < y := lt_of_le_of_ne hlow hy.symm
    rw [abs_of_pos (by linarith), abs_of_pos (by linarith)]
    linarith
  · rcases le_or_gt wanted high with hwanted' | hwanted'
    · rw [clamp_of_between hwanted hwanted'] at hy ⊢
      rw [sub_self, abs_zero]
      exact abs_pos.2 (sub_ne_zero.2 hy)
    · have hx : max low (min wanted high) = high := by
        rw [min_eq_right hwanted'.le, max_eq_right h]
      rw [hx] at hy ⊢
      have hlt : y < high := lt_of_le_of_ne hhigh hy
      rw [abs_of_neg (by linarith), abs_of_neg (by linarith)]
      linarith

/-- What has been moved between two coordinates stays there, and also what has been moved to the
lower one because the other is not above it. -/
theorem clamp_clamp (low high x : ℚ) :
    max low (min (max low (min x high)) high) = max low (min x high) := by
  rcases le_total low high with h | h
  · exact clamp_of_between (le_max_left _ _) (max_le h (min_le_right _ _))
  · have hlow : max low (min x high) = low := max_eq_left ((min_le_right _ _).trans h)
    rw [hlow, max_eq_left (min_le_left _ _)]

/-! ### Rectangles -/

/-- A rectangle lies in another one, edges included. -/
structure Holds (outer inner : Rect ℚ) : Prop where
  left : outer.x ≤ inner.x
  top : outer.y ≤ inner.y
  right : inner.x + inner.width ≤ outer.x + outer.width
  bottom : inner.y + inner.height ≤ outer.y + outer.height

variable {bounds inner : Rect ℚ} {size : Size ℚ} {wanted : Point ℚ} {padding : ℚ}

theorem contains_iff (outer inner : Rect ℚ) : outer.contains inner = true ↔ outer.Holds inner := by
  simp only [contains, Bool.and_eq_true, Scalar.le, decide_eq_true_eq]
  exact ⟨fun ⟨⟨⟨hx, hy⟩, hr⟩, hb⟩ => ⟨hx, hy, hr, hb⟩,
    fun h => ⟨⟨⟨h.left, h.top⟩, h.right⟩, h.bottom⟩⟩

theorem holds_self (r : Rect ℚ) : r.Holds r := ⟨le_rfl, le_rfl, le_rfl, le_rfl⟩

/-- The corner of a rectangle that is moved inside another one. -/
theorem clampInside_eq (outer inner : Rect ℚ) : outer.clampInside inner =
    ⟨max outer.x (min inner.x (outer.x + outer.width - inner.width)),
      max outer.y (min inner.y (outer.y + outer.height - inner.height))⟩ := by
  simp only [clampInside, greater_eq_max, lesser_eq_min]
  rfl

/-- What lies inside already is not moved. -/
theorem clampInside_of_holds (h : bounds.Holds (place wanted size)) :
    bounds.clampInside (place wanted size) = wanted := by
  obtain ⟨hleft, htop, hright, hbottom⟩ := h
  rw [clampInside_eq, clamp_of_between hleft (le_sub_iff_add_le.2 hright),
    clamp_of_between htop (le_sub_iff_add_le.2 hbottom)]
  rfl

/-- What has been moved inside stays where it is. -/
theorem clampInside_again (outer : Rect ℚ) (size : Size ℚ) (wanted : Point ℚ) :
    outer.clampInside (place (outer.clampInside (place wanted size)) size) =
      outer.clampInside (place wanted size) := by
  simp only [clampInside_eq, place, clamp_clamp]

/-- Where there is room for what is moved inside, it goes to the nearest place in either
direction. -/
theorem nearest_clampInside (outer : Rect ℚ) (size : Size ℚ) (wanted : Point ℚ) :
    (size.width ≤ outer.width → Nearest outer.x (outer.x + outer.width - size.width) wanted.x
      (outer.clampInside (place wanted size)).x) ∧
    (size.height ≤ outer.height → Nearest outer.y (outer.y + outer.height - size.height) wanted.y
      (outer.clampInside (place wanted size)).y) := by
  rw [clampInside_eq]
  exact ⟨fun h => nearest_clamp (by linarith) wanted.x,
    fun h => nearest_clamp (by linarith) wanted.y⟩

/-- Bounds that grow around a rectangle hold what they held before, and the rectangle too. -/
theorem holds_expandToInclude (bounds inner : Rect ℚ) (hpadding : 0 ≤ padding) :
    (bounds.expandToInclude inner padding).Holds bounds ∧
      (bounds.expandToInclude inner padding).Holds inner := by
  -- The bounds reach from one edge to the other, wherever the edges are.
  have hreach (low high : ℚ) : high ≤ low + max 0 (high - low) := by
    linarith [le_max_right 0 (high - low)]
  simp only [expandToInclude, span, greater_eq_max, lesser_eq_min]
  refine ⟨⟨min_le_left _ _, min_le_left _ _, (le_max_left _ _).trans (hreach _ _),
    (le_max_left _ _).trans (hreach _ _)⟩, ?_, ?_, ?_, ?_⟩
  · exact (min_le_right _ _).trans (sub_le_self _ hpadding)
  · exact (min_le_right _ _).trans (sub_le_self _ hpadding)
  · exact (le_add_of_nonneg_right hpadding).trans ((le_max_right _ _).trans (hreach _ _))
  · exact (le_add_of_nonneg_right hpadding).trans ((le_max_right _ _).trans (hreach _ _))

/-! ### Finding a place -/

/-- A place inside the bounds is granted. -/
theorem accommodate_of_holds (h : bounds.Holds (place wanted size)) (grow : Bool) (padding : ℚ) :
    bounds.accommodate size wanted grow padding = (wanted, bounds) :=
  if_pos ((contains_iff _ _).2 h)

/-- Bounds that do not grow move every node inside, where it is not there already. -/
theorem accommodate_keep (bounds : Rect ℚ) (size : Size ℚ) (wanted : Point ℚ) (padding : ℚ) :
    bounds.accommodate size wanted false padding =
      (bounds.clampInside (place wanted size), bounds) := by
  by_cases h : bounds.Holds (place wanted size)
  · rw [accommodate_of_holds h, clampInside_of_holds h]
  · exact (if_neg (mt (contains_iff _ _).1 h)).trans (if_neg Bool.false_ne_true)

/-- Bounds that grow let the node be where it is wanted. -/
theorem accommodate_grow (bounds : Rect ℚ) (size : Size ℚ) (wanted : Point ℚ)
    (hpadding : 0 ≤ padding) : ∃ grown : Rect ℚ, grown.Holds bounds ∧
      grown.Holds (place wanted size) ∧
      bounds.accommodate size wanted true padding = (wanted, grown) := by
  by_cases h : bounds.Holds (place wanted size)
  · exact ⟨bounds, holds_self bounds, h, accommodate_of_holds h true padding⟩
  · obtain ⟨hold, hnew⟩ := holds_expandToInclude bounds (place wanted size) hpadding
    exact ⟨_, hold, hnew, (if_neg (mt (contains_iff _ _).1 h)).trans (if_pos rfl)⟩

/-- A node that is wanted at a place in a group. If the group may grow, the node gets the place, and
the bounds then hold the old ones and the node. If not, the bounds stay, and in each direction in
which the node is no larger than they are, it goes where it is nearest to the place. Wanted where it
went, it goes there again, and the bounds stay. On a graph the node is as large as the layout says,
and the bounds are those of the group. -/
theorem accommodate_settled :
    (∀ (bounds : Rect ℚ) (size : Size ℚ) (wanted : Point ℚ) (padding : ℚ), 0 ≤ padding →
      let grown := bounds.accommodate size wanted true padding
      let kept := bounds.accommodate size wanted false padding
      (grown.1 = wanted ∧ grown.2.Holds bounds ∧ grown.2.Holds (place wanted size)) ∧
      (kept.2 = bounds ∧
        (size.width ≤ bounds.width →
          Nearest bounds.x (bounds.x + bounds.width - size.width) wanted.x kept.1.x) ∧
        (size.height ≤ bounds.height →
          Nearest bounds.y (bounds.y + bounds.height - size.height) wanted.y kept.1.y) ∧
        (size.width ≤ bounds.width → size.height ≤ bounds.height →
          bounds.Holds (place kept.1 size))) ∧
      grown.2.accommodate size grown.1 true padding = grown ∧
      kept.2.accommodate size kept.1 false padding = kept) ∧
    ∀ (l : Layout) (g : Graph) (a : GroupKey) (k : NodeKey) (b : Group) (n : Node)
      (wanted : Point Float) (grow : Bool) (padding : Float),
      g.group? a = some b → g.node? k = some n →
      let r := b.bounds.accommodate (l.sizeOf n) wanted grow padding
      l.constrain g a k wanted grow padding = (r.1, Layout.setBounds g a fun _ => r.2) := by
  refine ⟨fun bounds size wanted padding hpadding => ?_,
    fun l g a k b n wanted grow padding hb hn => by rw [Layout.constrain, hb, hn]⟩
  obtain ⟨grown, hold, hnew, hgrown⟩ := accommodate_grow bounds size wanted hpadding
  obtain ⟨hx, hy⟩ := nearest_clampInside bounds size wanted
  simp only [hgrown, accommodate_keep]
  -- Grown bounds grant the place again because they hold the node there, fixed ones because moving a
  -- node inside twice is moving it once, also a node that there is no room for.
  refine ⟨⟨trivial, hold, hnew⟩, ⟨trivial, hx, hy, fun hwidth hheight => ?_⟩,
    accommodate_of_holds hnew true padding, by rw [clampInside_again]⟩
  have hx := hx hwidth
  have hy := hy hheight
  exact ⟨hx.low_le, hy.low_le, le_sub_iff_add_le.1 hx.le_high, le_sub_iff_add_le.1 hy.le_high⟩

/-- A node that is wanted beyond the lower right corner of a group. -/
theorem accommodate_settled_beyond :
    let bounds : Rect ℚ := ⟨0, 0, 100, 100⟩
    let size : Size ℚ := ⟨50, 30⟩
    (0 : ℚ) ≤ 10 ∧ size.width ≤ bounds.width ∧
      bounds.accommodate size ⟨90, 90⟩ false 10 = (⟨50, 70⟩, bounds) ∧
      bounds.accommodate size ⟨90, 90⟩ true 10 = (⟨90, 90⟩, ⟨0, 0, 150, 130⟩) ∧
      bounds.Holds (place ⟨50, 70⟩ size) ∧ Nearest 0 50 90 50 := by
  intro bounds size
  have hkept : bounds.accommodate size ⟨90, 90⟩ false 10 = (⟨50, 70⟩, bounds) := by decide +kernel
  have hgrown : bounds.accommodate size ⟨90, 90⟩ true 10 = (⟨90, 90⟩, ⟨0, 0, 150, 130⟩) := by
    decide +kernel
  have hwidth : size.width ≤ bounds.width := by decide +kernel
  have hheight : size.height ≤ bounds.height := by decide +kernel
  have h := accommodate_settled.1 bounds size ⟨90, 90⟩ 10 (by norm_num)
  simp only [hkept, hgrown] at h
  obtain ⟨-, ⟨-, hx, -, hholds⟩, -⟩ := h
  have hhigh : bounds.x + bounds.width - size.width = 50 := by norm_num [bounds, size]
  exact ⟨by norm_num, hwidth, hkept, hgrown, hholds hwidth hheight, hhigh ▸ hx hwidth⟩

end Rect
end Patchbay
