import Mathlib.Tactic.Ring
import Patchbay.Decimal.Shortest
import Patchbay.Proofs.Decimal.Digits
import Patchbay.Proofs.Decimal.Nearest
/-!
# Shortest digits

The shortest digits of a double lie in the interval around it, so that they round to it. With
seventeen digits there is always a number in that interval: its width is more than a unit of the last
of them.

## Main statements

* `Interval.has_iff`: the interval of a double, as fractions.
* `Interval.gridPoint?_ne_none`: seventeen digits are enough.
* `shortestDigits_spec`: the shortest digits of a double round to it.
-/
namespace Patchbay.Decimal
open Numeral (digits ofDigits Leads)
variable {m : ℕ} {e : ℤ}

namespace Interval

/-- A fraction that is scaled lies between two bounds if it lies between the scaled bounds. -/
theorem low_le_iff (m : ℕ) (e : ℤ) (b x : ℚ) :
    (m - b) * 2 ^ e ≤ x ↔ (m : ℚ) - b ≤ x * 2 ^ (-e) := by
  rw [zpow_neg, ← div_eq_mul_inv, le_div_iff₀ (by positivity)]

theorem low_lt_iff (m : ℕ) (e : ℤ) (b x : ℚ) :
    (m - b) * 2 ^ e < x ↔ (m : ℚ) - b < x * 2 ^ (-e) := by
  rw [zpow_neg, ← div_eq_mul_inv, lt_div_iff₀ (by positivity)]

theorem le_high_iff (m : ℕ) (e : ℤ) (b x : ℚ) :
    x ≤ (m + b) * 2 ^ e ↔ x * 2 ^ (-e) ≤ (m : ℚ) + b := by
  rw [zpow_neg, ← div_eq_mul_inv, div_le_iff₀ (by positivity)]

theorem lt_high_iff (m : ℕ) (e : ℤ) (b x : ℚ) :
    x < (m + b) * 2 ^ e ↔ x * 2 ^ (-e) < (m : ℚ) + b := by
  rw [zpow_neg, ← div_eq_mul_inv, div_lt_iff₀ (by positivity)]

/-- The ends and the middle of the interval of a double. -/
theorem ofBinary_ends (hm : 0 < m) : 0 < (ofBinary m e).den ∧
    ((ofBinary m e).low : ℚ) / (ofBinary m e).den = (m - Binary.below m e) * 2 ^ e ∧
    ((ofBinary m e).mid : ℚ) / (ofBinary m e).den = m * 2 ^ e ∧
    ((ofBinary m e).high : ℚ) / (ofBinary m e).den = (m + 1 / 2) * 2 ^ e := by
  have hd := scale_den_pos two_pos (show 0 < 4 by norm_num) 1 e
  have hu := scale_value two_pos 1 4 e
  simp only [ofBinary]
  generalize (scale 2 1 4 e).1 = u at *
  generalize (scale 2 1 4 e).2 = d at *
  have hd' : (d : ℚ) ≠ 0 := by exact_mod_cast hd.ne'
  have hu' : (u : ℚ) = d * (1 / 4 * 2 ^ e) := by
    rw [mul_comm, ← div_eq_iff hd', hu]
    norm_num
  refine ⟨hd, ?_, ?_, ?_⟩
  · rw [div_eq_iff hd', Binary.below]
    have hle : (if m = Nat.pow 2 52 ∧ -1074 < e then u else 2 * u) ≤ 4 * m * u := by
      have h4 : 4 * u ≤ 4 * m * u := Nat.mul_le_mul_right u (by omega)
      split <;> omega
    rw [Nat.cast_sub hle]
    split
    · next h =>
      rw [if_pos (show m = 2 ^ 52 ∧ -1074 < e from h)]
      push_cast
      rw [hu']
      ring
    · next h =>
      rw [if_neg (show ¬ (m = 2 ^ 52 ∧ -1074 < e) from h)]
      push_cast
      rw [hu']
      ring
  · rw [div_eq_iff hd']
    push_cast
    rw [hu']
    ring
  · rw [div_eq_iff hd']
    push_cast
    rw [hu']
    ring

/-- The points of the interval of a double are the fractions that are near to it. -/
theorem has_iff (hm : 0 < m) {a b : ℕ} (hb : 0 < b) :
    (ofBinary m e).has a b = true ↔ Binary.Near m e ((a : ℚ) / b) := by
  obtain ⟨hd, hlow, -, hhigh⟩ := ofBinary_ends (e := e) hm
  have hclosed : (ofBinary m e).closed = decide (m % 2 = 0) := rfl
  have hb' : (0 : ℚ) < b := by exact_mod_cast hb
  have hd' : (0 : ℚ) < (ofBinary m e).den := by exact_mod_cast hd
  -- products of natural numbers are compared as quotients are
  have hle (p q r s : ℕ) (hq : (0 : ℚ) < q) (hs : (0 : ℚ) < s) :
      p * s ≤ r * q ↔ (p : ℚ) / q ≤ r / s := by
    rw [div_le_div_iff₀ hq hs]
    exact_mod_cast Iff.rfl
  have hlt (p q r s : ℕ) (hq : (0 : ℚ) < q) (hs : (0 : ℚ) < s) :
      p * s < r * q ↔ (p : ℚ) / q < r / s := by
    rw [div_lt_div_iff₀ hq hs]
    exact_mod_cast Iff.rfl
  rw [has, hclosed]
  rcases Nat.mod_two_eq_zero_or_one m with heven | hodd
  · simp only [heven, decide_true, if_true, Bool.and_eq_true, decide_eq_true_eq]
    rw [hle _ _ _ _ hd' hb', hle _ _ _ _ hb' hd', hlow, hhigh, low_le_iff, le_high_iff]
    exact ⟨fun h => ⟨h.1, h.2, fun h' => by omega⟩, fun h => ⟨h.low, h.high⟩⟩
  · simp only [hodd, one_ne_zero, decide_false, Bool.false_eq_true, if_false, Bool.and_eq_true,
      decide_eq_true_eq]
    rw [hlt _ _ _ _ hd' hb', hlt _ _ _ _ hb' hd', hlow, hhigh, low_lt_iff, lt_high_iff]
    exact ⟨fun h => ⟨h.1.le, h.2.le, fun _ => h⟩, fun h => h.inner hodd⟩

/-- A point of a grid that was chosen lies in the interval. -/
theorem has_of_gridPoint? {i : Interval} {first : ℤ} {count : ℕ} {p : ℕ × ℕ × ℕ}
    (h : i.gridPoint? first count = some p) :
    i.has (scale 10 p.1 1 (-((count : ℤ) - 1 - first))).1
      (scale 10 p.1 1 (-((count : ℤ) - 1 - first))).2 = true := by
  simp only [gridPoint?] at h
  split at h
  · next hbelow _ =>
    cases h
    exact hbelow
  · next _ habove =>
    cases h
    exact habove
  · cases h
  · next hbelow habove =>
    split at h
    · cases h
      exact hbelow
    · split at h
      · cases h
        exact habove
      · split at h
        · cases h
          exact hbelow
        · cases h
          exact habove

/-- If one of the neighbours of the middle lies in the interval, a point is chosen. -/
theorem gridPoint?_ne_none {i : Interval} {first : ℤ} {count q : ℕ}
    (hq : q = (scale 10 i.mid i.den ((count : ℤ) - 1 - first)).1 /
      (scale 10 i.mid i.den ((count : ℤ) - 1 - first)).2)
    (h : i.has (scale 10 q 1 (-((count : ℤ) - 1 - first))).1
        (scale 10 q 1 (-((count : ℤ) - 1 - first))).2 = true ∨
      i.has (scale 10 (q + 1) 1 (-((count : ℤ) - 1 - first))).1
        (scale 10 (q + 1) 1 (-((count : ℤ) - 1 - first))).2 = true) :
    i.gridPoint? first count ≠ none := by
  subst hq
  intro hnone
  simp only [gridPoint?] at hnone
  split at hnone
  · cases hnone
  · cases hnone
  · next hbelow habove =>
    rcases h with h | h
    · cases hbelow.symm.trans h
    · cases habove.symm.trans h
  · split at hnone
    · cases hnone
    · split at hnone
      · cases hnone
      · split at hnone <;> cases hnone

/-- The interval around a double is wider than a unit of the seventeenth digit, so that one of the
neighbours of the double lies in it. -/
theorem near_of_seventeen {s w : ℚ} {q : ℕ} (hf : Binary.Fits m e) (hs : 0 < s)
    (hw : w = m * 2 ^ e * s) (hten : 10 ^ 16 ≤ w) (hq₁ : (q : ℚ) ≤ w) (hq₂ : w < q + 1) :
    Binary.Near m e (q / s) ∨ Binary.Near m e ((q + 1 : ℕ) / s) := by
  have hu : 0 < (2 : ℚ) ^ e * s := by positivity
  have hm : (m : ℚ) + 1 ≤ 2 ^ 53 := by exact_mod_cast hf.bits
  have hscale (y : ℚ) : y / s * 2 ^ (-e) = y / (2 ^ e * s) := by
    rw [zpow_neg]
    field_simp
  rw [mul_assoc] at hw
  generalize (2 : ℚ) ^ e * s = u at *
  have hwide : 1 < u := by nlinarith
  have hbelow := Binary.below_le m e
  -- either neighbour is near if it is strictly inside
  have hnear {y : ℚ} (h₁ : (m - Binary.below m e) * u < y) (h₂ : y < (m + 1 / 2) * u) :
      Binary.Near m e (y / s) := by
    have h₁ := (lt_div_iff₀ hu).2 h₁
    have h₂ := (div_lt_iff₀ hu).2 h₂
    rw [← hscale] at h₁ h₂
    exact ⟨h₁.le, h₂.le, fun _ => ⟨h₁, h₂⟩⟩
  rcases lt_or_ge ((m - Binary.below m e) * u) q with hlow | hlow
  · exact .inl (hnear hlow (by nlinarith))
  · refine .inr (hnear ?_ ?_)
    · push_cast
      have hpos : 0 ≤ Binary.below m e := by
        rw [Binary.below]
        split <;> norm_num
      nlinarith
    · push_cast
      rw [Binary.below] at hlow
      split at hlow
      · next h =>
        -- the gap below a power of two is half as wide, but so is the last digit
        have hm : (m : ℚ) = 2 ^ 52 := by exact_mod_cast h.1
        rw [hm] at hw hlow ⊢
        nlinarith
      · nlinarith

/-- Seventeen digits are enough. -/
theorem gridPoint?_seventeen (hf : Binary.Fits m e) (hm : 0 < m) :
    (ofBinary m e).gridPoint? (leading (ofBinary m e).mid (ofBinary m e).den) 17 ≠ none := by
  obtain ⟨hd, -, hmid, -⟩ := ofBinary_ends (e := e) hm
  have hvalue : (0 : ℚ) < m * 2 ^ e := by
    have hm' : (0 : ℚ) < m := by exact_mod_cast hm
    positivity
  have hpos : 0 < (ofBinary m e).mid := by
    by_contra h
    rw [Nat.eq_zero_of_not_pos h, Nat.cast_zero, zero_div] at hmid
    exact hvalue.ne hmid
  obtain ⟨hlow, -⟩ := leading_spec hpos hd
  generalize leading (ofBinary m e).mid (ofBinary m e).den = first at *
  refine gridPoint?_ne_none rfl ?_
  have hden := scale_den_pos (show 0 < 10 by norm_num) hd (ofBinary m e).mid
    (((17 : ℕ) : ℤ) - 1 - first)
  have hscale := scale_value (show 0 < 10 by norm_num) (ofBinary m e).mid (ofBinary m e).den
    (((17 : ℕ) : ℤ) - 1 - first)
  rw [hmid] at hlow hscale
  rw [show ((10 : ℕ) : ℚ) = 10 from rfl] at hscale
  generalize (scale 10 (ofBinary m e).mid (ofBinary m e).den (((17 : ℕ) : ℤ) - 1 - first)).1 = n at *
  generalize (scale 10 (ofBinary m e).mid (ofBinary m e).den (((17 : ℕ) : ℤ) - 1 - first)).2 = d at *
  -- the numbers of seventeen digits on either side of the double
  have hq₁ : ((n / d : ℕ) : ℚ) ≤ n / d := Nat.cast_div_le
  have hq₂ : (n : ℚ) / d < (n / d : ℕ) + 1 := by
    rw [div_lt_iff₀ (by exact_mod_cast hden), mul_comm]
    exact_mod_cast Nat.lt_mul_div_succ n hden
  have hten : (10 : ℚ) ^ 16 ≤ n / d := by
    calc (10 : ℚ) ^ 16 = 10 ^ first * 10 ^ (((17 : ℕ) : ℤ) - 1 - first) := by
          rw [← zpow_add₀ (by norm_num), ← zpow_natCast]
          congr 1
          omega
      _ ≤ m * 2 ^ e * 10 ^ (((17 : ℕ) : ℤ) - 1 - first) :=
          mul_le_mul_of_nonneg_right hlow (by positivity)
      _ = n / d := hscale.symm
  have hpoint (q : ℕ) : ((scale 10 q 1 (-(((17 : ℕ) : ℤ) - 1 - first))).1 : ℚ) /
      (scale 10 q 1 (-(((17 : ℕ) : ℤ) - 1 - first))).2 =
        q / 10 ^ (((17 : ℕ) : ℤ) - 1 - first) := by
    rw [scale_value (by norm_num), Nat.cast_one, div_one, zpow_neg, ← div_eq_mul_inv]
    rfl
  have hin (q : ℕ) := has_iff (e := e) hm (a := (scale 10 q 1 (-(((17 : ℕ) : ℤ) - 1 - first))).1)
    (scale_den_pos (show 0 < 10 by norm_num) one_pos q (-(((17 : ℕ) : ℤ) - 1 - first)))
  rw [hin, hin, hpoint, hpoint]
  exact near_of_seventeen hf (by positivity) hscale hten hq₁ hq₂

end Interval

/-- The number that is nearest to zero is not zero. -/
theorem Binary.Near.pos {x : ℚ} (hm : 0 < m) (h : Binary.Near m e x) : 0 < x := by
  have hm' : (1 : ℚ) ≤ m := by exact_mod_cast hm
  have hbelow := Binary.below_le m e
  have hlow := h.low
  have hscaled : 0 < x * 2 ^ (-e) := by linarith
  exact pos_of_mul_pos_left hscaled (by positivity)

/-- The shortest digits of a double round to it. -/
theorem shortestDigits_spec (hf : Binary.Fits m e) (hm : 0 < m) :
    ∃ ds x, shortestDigits m e = (ds, x) ∧ Leads ds ∧
      Binary.Near m e (ofDigits ds * 10 ^ (x + 1 - ds.length)) := by
  simp only [shortestDigits]
  split
  · next count q hfind =>
    obtain ⟨k, -, hk⟩ := List.exists_of_findSome?_eq_some hfind
    obtain ⟨p, hpoint, heq⟩ := Option.map_eq_some_iff.1 hk
    obtain ⟨rfl, rfl⟩ := Prod.mk.inj heq
    have hin := Interval.has_of_gridPoint? hpoint
    generalize leading (Interval.ofBinary m e).mid (Interval.ofBinary m e).den = first at *
    rw [Interval.has_iff hm (scale_den_pos (by norm_num) one_pos _ _), scale_value (by norm_num),
      Nat.cast_one, div_one, show ((10 : ℕ) : ℚ) = 10 from rfl] at hin
    have hq : 0 < p.1 := by
      have hpos := hin.pos hm
      by_contra h
      rw [Nat.eq_zero_of_not_pos h, Nat.cast_zero, zero_mul] at hpos
      exact lt_irrefl _ hpos
    obtain ⟨n, hdigits, hleads⟩ := exists_trimZeros (Numeral.leads_digits hq)
    refine ⟨_, _, rfl, hleads, ?_⟩
    have hvalue : p.1 = 10 ^ n * ofDigits (trimZeros (digits p.1)) := by
      rw [← Numeral.ofDigits_append_zeros, ← hdigits, Numeral.ofDigits_digits]
    have hlength : (digits p.1).length = (trimZeros (digits p.1)).length + n := by
      conv_lhs => rw [hdigits, List.length_append, List.length_replicate]
    have hsame : (p.1 : ℚ) * 10 ^ (-(((k + 1 : ℕ) : ℤ) - 1 - first)) =
        ofDigits (trimZeros (digits p.1)) *
          10 ^ (first + (digits p.1).length - ((k + 1 : ℕ) : ℤ) + 1 -
            (trimZeros (digits p.1)).length) := by
      rw [hlength]
      conv_lhs => rw [hvalue]
      push_cast
      rw [mul_comm ((10 : ℚ) ^ n), mul_assoc, ← zpow_natCast, ← zpow_add₀ (by norm_num)]
      congr 2
      omega
    exact hsame ▸ hin
  · next hnone =>
    exfalso
    have h := List.findSome?_eq_none_iff.1 hnone 16 (by decide)
    exact Interval.gridPoint?_seventeen hf hm (Option.map_eq_none_iff.1 h)

end Patchbay.Decimal
