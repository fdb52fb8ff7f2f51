import Patchbay.Decimal.Reader
import Patchbay.Proofs.Decimal.Shortest
/-!
# Decimal numbers near a double

A decimal number in the interval around a double is read as that double: it is neither so large nor
so small that its power of ten is not worked out.

## Main statements

* `nearestDecimal_eq`: a decimal number in the interval around a double rounds to that double.
-/
namespace Patchbay.Decimal
open Numeral (digits)
variable {m : ℕ} {e : ℤ}

/-- No double reaches as far as a number of 400 digits. -/
theorem Binary.Near.lt_ten_pow {x : ℚ} (hf : Binary.Fits m e) (h : Binary.Near m e x) :
    x < 10 ^ (400 : ℤ) := by
  have hm : (m : ℚ) + 1 ≤ 2 ^ 53 := by exact_mod_cast hf.bits
  have hhigh := h.high
  have hx : x = x * 2 ^ (-e) * 2 ^ e := by
    rw [mul_assoc, ← zpow_add₀ two_ne_zero, neg_add_cancel, zpow_zero, mul_one]
  calc x = x * 2 ^ (-e) * 2 ^ e := hx
    _ < 2 ^ 53 * 2 ^ e := mul_lt_mul_of_pos_right (by linarith) (by positivity)
    _ ≤ 2 ^ 53 * 2 ^ (971 : ℤ) := by
        refine mul_le_mul_of_nonneg_left ?_ (by positivity)
        exact zpow_le_zpow_right₀ one_le_two hf.greatest
    _ ≤ (2 ^ (13 : ℤ)) ^ (79 : ℤ) := by
        rw [← zpow_natCast, ← zpow_add₀ two_ne_zero, ← zpow_mul]
        exact zpow_le_zpow_right₀ one_le_two (by norm_num)
    _ ≤ (10 ^ (4 : ℤ)) ^ (79 : ℤ) := zpow_le_zpow_left₀ (by norm_num) (by positivity) (by norm_num)
    _ ≤ 10 ^ (400 : ℤ) := by
        rw [← zpow_mul]
        exact zpow_le_zpow_right₀ (by norm_num) (by norm_num)

/-- No double but zero is as near to zero as a number with 400 zeros behind the point. -/
theorem Binary.Near.ten_pow_lt {x : ℚ} (hf : Binary.Fits m e) (hm : 0 < m) (h : Binary.Near m e x) :
    10 ^ (-400 : ℤ) < x := by
  have hm' : (1 : ℚ) ≤ m := by exact_mod_cast hm
  have hbelow := Binary.below_le m e
  have hlow := h.low
  have hx : x = x * 2 ^ (-e) * 2 ^ e := by
    rw [mul_assoc, ← zpow_add₀ two_ne_zero, neg_add_cancel, zpow_zero, mul_one]
  calc (10 : ℚ) ^ (-400 : ℤ) < (10 ^ (4 : ℤ)) ^ (-83 : ℤ) := by
        rw [← zpow_mul]
        exact zpow_lt_zpow_right₀ (by norm_num) (by norm_num)
    _ ≤ (2 ^ (13 : ℤ)) ^ (-83 : ℤ) := by
        rw [zpow_neg, zpow_neg]
        exact inv_anti₀ (by positivity) (zpow_le_zpow_left₀ (by norm_num) (by positivity)
          (by norm_num))
    _ ≤ 2 ^ (-1 : ℤ) * 2 ^ (-1074 : ℤ) := by
        rw [← zpow_mul, ← zpow_add₀ two_ne_zero]
        exact zpow_le_zpow_right₀ one_le_two (by norm_num)
    _ ≤ x * 2 ^ (-e) * 2 ^ e := by
        refine mul_le_mul ?_ (zpow_le_zpow_right₀ one_le_two hf.least) (by positivity) ?_
        · rw [zpow_neg_one]
          linarith
        · linarith
    _ = x := hx.symm

/-- The number of digits before the point of a number, or less zeros behind it. -/
theorem size_spec {M : ℕ} (hM : 0 < M) (E : ℤ) :
    (10 : ℚ) ^ (((digits M).length : ℤ) + E - 1) ≤ M * 10 ^ E ∧
      (M : ℚ) * 10 ^ E < 10 ^ (((digits M).length : ℤ) + E) := by
  have hlength : 0 < (digits M).length := Nat.length_toDigits_pos
  have h₁ : (10 : ℚ) ^ (((digits M).length - 1 : ℕ) : ℤ) ≤ M := by
    rw [zpow_natCast]
    exact_mod_cast Numeral.pow_length_digits_le hM
  have h₂ : (M : ℚ) < 10 ^ ((digits M).length : ℤ) := by
    rw [zpow_natCast]
    exact_mod_cast Numeral.lt_pow_length_digits M
  constructor
  · rw [show ((digits M).length : ℤ) + E - 1 = (((digits M).length - 1 : ℕ) : ℤ) + E by omega,
      zpow_add₀ (by norm_num)]
    exact mul_le_mul_of_nonneg_right h₁ (by positivity)
  · rw [zpow_add₀ (by norm_num)]
    exact mul_lt_mul_of_pos_right h₂ (by positivity)

/-- A decimal number in the interval around a double rounds to that double. -/
theorem nearestDecimal_eq (hf : Binary.Fits m e) (hm : 0 < m) {M : ℕ} {E : ℤ}
    (h : Binary.Near m e (M * 10 ^ E)) (negative : Bool) :
    (nearestDecimal negative M E).value = Binary.pack negative m e ∧
      (nearestDecimal negative M E).overflow = false := by
  have hM : 0 < M := by
    have hpos := h.pos hm
    by_contra h
    rw [Nat.eq_zero_of_not_pos h, Nat.cast_zero, zero_mul] at hpos
    exact lt_irrefl _ hpos
  obtain ⟨h₁, h₂⟩ := size_spec hM E
  have hlow := (zpow_lt_zpow_iff_right₀ (by norm_num)).1 ((h.ten_pow_lt hf hm).trans h₂)
  have hhigh := (zpow_lt_zpow_iff_right₀ (by norm_num)).1 (h₁.trans_lt (h.lt_ten_pow hf))
  have hvalue := scale_value (show 0 < 10 by norm_num) M 1 E
  rw [Nat.cast_one, div_one, show ((10 : ℕ) : ℚ) = 10 from rfl] at hvalue
  rw [← hvalue] at h
  simp only [nearestDecimal]
  rw [if_neg hM.ne', if_neg (by omega), if_neg (by omega)]
  exact Binary.nearest_eq hf hm (scale_den_pos (by norm_num) one_pos M E) h negative

end Patchbay.Decimal
