import Mathlib.Data.Int.Order.Basic
import Patchbay.Proofs.Decimal.Nearest
/-!
# Integers of 53 bits

A double has room for 53 significant bits. Of an integer that has more it keeps the first 53, and
the rest is rounded away, so that far from zero neighbouring integers become the same number. But no
two integers change places.

## Main definitions

* `Binary.shortened`: an integer, rounded to 53 significant bits.

## Main statements

* `Binary.shortened_eq_self`: an integer with at most 53 bits is kept.
* `Binary.shortened_near`: at most half a unit of the last bit is rounded away.
* `Binary.shortened_lt_iff`: an integer stays less than another, unless both become the same number.
* `Binary.shortened_lt_of_far`: 64-bit integers become the same number only if they lie close.
-/
namespace Patchbay.Decimal
variable {m n den : ℕ}

/-! ### Quotients -/

theorem roundDiv_one (n : ℕ) : roundDiv n 1 = n := by
  simpa using roundDiv_mul n Nat.one_pos

/-- A common factor does not matter. -/
theorem roundDiv_mul_mul (num : ℕ) (hd : 0 < den) {c : ℕ} (hc : 0 < c) :
    roundDiv (num * c) (den * c) = roundDiv num den := by
  refine roundDiv_eq (Nat.mul_pos hd hc) ?_
  push_cast
  rw [mul_div_mul_right _ _ (by exact_mod_cast hc.ne')]
  exact rounds_roundDiv num hd

/-- A quotient is rounded to one of the natural numbers next to it. -/
theorem le_roundDiv_and_le (num den : ℕ) :
    num / den ≤ roundDiv num den ∧ roundDiv num den ≤ num / den + 1 := by
  unfold roundDiv
  simp only
  split
  · omega
  · split
    · omega
    · split <;> omega

/-- A larger number is not rounded to a smaller one. -/
theorem roundDiv_mono (h : m ≤ n) (den : ℕ) : roundDiv m den ≤ roundDiv n den := by
  rcases (Nat.div_le_div_right h : m / den ≤ n / den).lt_or_eq with hlt | heq
  · exact (le_roundDiv_and_le m den).2.trans (hlt.trans_le (le_roundDiv_and_le n den).1)
  · have hm := Nat.div_add_mod m den
    have hn := Nat.div_add_mod n den
    rw [heq] at hm
    have hrest : m % den ≤ n % den := by omega
    unfold roundDiv
    simp only [heq]
    generalize n / den = q at *
    generalize m % den = r at *
    generalize n % den = t at *
    split_ifs <;> omega

namespace Binary

/-! ### Natural numbers -/

/-- A natural number, rounded to 53 significant bits; a half goes to the even neighbour. -/
def shorten (n : ℕ) : ℕ := roundDiv n (2 ^ (n.log2 - 52)) * 2 ^ (n.log2 - 52)

theorem shorten_of_lt (h : n < 2 ^ 53) : shorten n = n := by
  have hlog : n.log2 - 52 = 0 := by
    by_cases hn : n = 0
    · simp [hn]
    · have := (Nat.log2_lt hn).2 h
      omega
  rw [shorten, hlog, pow_zero, mul_one, roundDiv_one]

theorem shorten_two_pow (k : ℕ) : shorten (2 ^ k) = 2 ^ k := by
  rw [shorten, Nat.log2_two_pow]
  rcases le_total 52 k with hk | hk
  · obtain ⟨i, rfl⟩ := Nat.exists_eq_add_of_le hk
    rw [Nat.add_sub_cancel_left, pow_add, roundDiv_mul _ (Nat.two_pow_pos i)]
  · rw [Nat.sub_eq_zero_of_le hk, pow_zero, mul_one, roundDiv_one]

/-- The first 53 bits of a number are rounded to 53 bits again, or to the next power of two. -/
theorem roundDiv_bounds (h : 52 ≤ n.log2) : 2 ^ 52 ≤ roundDiv n (2 ^ (n.log2 - 52)) ∧
    roundDiv n (2 ^ (n.log2 - 52)) ≤ 2 ^ 53 := by
  obtain ⟨k, hk⟩ := Nat.exists_eq_add_of_le h
  have hn : n ≠ 0 := by
    rintro rfl
    simp at h
  have hlow : 2 ^ n.log2 ≤ n := Nat.log2_self_le hn
  have hhigh : n < 2 ^ (n.log2 + 1) := Nat.lt_log2_self
  obtain ⟨hfloor, hceil⟩ := le_roundDiv_and_le n (2 ^ k)
  have hpos := Nat.two_pow_pos k
  have hleast : 2 ^ 52 ≤ n / 2 ^ k := by
    rw [Nat.le_div_iff_mul_le hpos, ← pow_add, ← hk]
    exact hlow
  have hmost : n / 2 ^ k < 2 ^ 53 := by
    rw [Nat.div_lt_iff_lt_mul hpos, ← pow_add]
    rwa [hk, show 52 + k + 1 = 53 + k by omega] at hhigh
  rw [hk, Nat.add_sub_cancel_left]
  omega

/-- What is rounded has as many bits as before, or it is the next power of two. -/
theorem shorten_bounds (hn : n ≠ 0) : 2 ^ n.log2 ≤ shorten n ∧ shorten n ≤ 2 ^ (n.log2 + 1) := by
  have hlow : 2 ^ n.log2 ≤ n := Nat.log2_self_le hn
  have hhigh : n < 2 ^ (n.log2 + 1) := Nat.lt_log2_self
  rcases Nat.lt_or_ge n (2 ^ 53) with hlt | hge
  · rw [shorten_of_lt hlt]
    exact ⟨hlow, hhigh.le⟩
  · have hlog : 52 ≤ n.log2 :=
      (Nat.le_log2 hn).2 ((by norm_num : 2 ^ 52 ≤ 2 ^ 53).trans hge)
    obtain ⟨hleast, hmost⟩ := roundDiv_bounds hlog
    have hpow (i : ℕ) : 2 ^ (n.log2 + i) = 2 ^ (52 + i) * 2 ^ (n.log2 - 52) := by
      rw [← pow_add]
      congr 1
      omega
    have hlast := hpow 0
    rw [add_zero, add_zero] at hlast
    rw [shorten, hpow 1, hlast]
    exact ⟨Nat.mul_le_mul_right _ hleast, Nat.mul_le_mul_right _ hmost⟩

/-- A larger number is not rounded to a smaller one. -/
theorem shorten_mono (h : m ≤ n) : shorten m ≤ shorten n := by
  rcases Nat.eq_zero_or_pos m with rfl | hm
  · rw [shorten_of_lt (by norm_num)]
    exact Nat.zero_le _
  have hn : n ≠ 0 := by omega
  have hlog : m.log2 ≤ n.log2 := (Nat.le_log2 hn).2 ((Nat.log2_self_le hm.ne').trans h)
  rcases hlog.lt_or_eq with hlt | heq
  · calc
      shorten m ≤ 2 ^ (m.log2 + 1) := (shorten_bounds hm.ne').2
      _ ≤ 2 ^ n.log2 := Nat.pow_le_pow_right two_pos hlt
      _ ≤ shorten n := (shorten_bounds hn).1
  · rw [shorten, shorten, heq]
    exact Nat.mul_le_mul_right _ (roundDiv_mono h _)

/-- At most half a unit of the last bit is rounded away. -/
theorem shorten_near (n : ℕ) :
    2 * n ≤ 2 * shorten n + 2 ^ (n.log2 - 52) ∧ 2 * shorten n ≤ 2 * n + 2 ^ (n.log2 - 52) := by
  have hnear := roundDiv_near n (Nat.two_pow_pos (n.log2 - 52))
  rwa [Nat.mul_comm (2 ^ (n.log2 - 52))] at hnear

/-! ### Integers -/

/-- An integer, rounded to 53 significant bits. -/
def shortened (n : ℤ) : ℤ := n.sign * shorten n.natAbs

theorem shortened_natCast (n : ℕ) : shortened n = shorten n := by
  rcases Nat.eq_zero_or_pos n with rfl | hn
  · rfl
  · rw [shortened, Int.sign_natCast_of_ne_zero hn.ne', one_mul, Int.natAbs_natCast]

theorem shortened_neg (n : ℤ) : shortened (-n) = -shortened n := by
  rw [shortened, shortened, Int.sign_neg, Int.natAbs_neg, neg_mul]

/-- An integer with at most 53 bits is kept, and so is the next one after these. -/
theorem shortened_eq_self {n : ℤ} (h : n.natAbs ≤ 2 ^ 53) : shortened n = n := by
  have hkept : shorten n.natAbs = n.natAbs := by
    rcases h.lt_or_eq with hlt | heq
    · exact shorten_of_lt hlt
    · rw [heq, shorten_two_pow]
  rw [shortened, hkept, Int.sign_mul_natAbs]

/-- No two integers change places. -/
theorem shortened_mono {a b : ℤ} (hab : a ≤ b) : shortened a ≤ shortened b := by
  rcases le_total 0 a with ha | ha
  · obtain ⟨m, rfl⟩ := Int.eq_ofNat_of_zero_le ha
    obtain ⟨n, rfl⟩ := Int.eq_ofNat_of_zero_le (ha.trans hab)
    rw [shortened_natCast, shortened_natCast]
    exact_mod_cast shorten_mono (by exact_mod_cast hab)
  · obtain ⟨m, hm⟩ := Int.eq_ofNat_of_zero_le (neg_nonneg.2 ha)
    obtain rfl : a = -m := by rw [← hm, neg_neg]
    rw [shortened_neg, shortened_natCast]
    rcases le_total 0 b with hb | hb
    · obtain ⟨n, rfl⟩ := Int.eq_ofNat_of_zero_le hb
      rw [shortened_natCast]
      omega
    · obtain ⟨n, hn⟩ := Int.eq_ofNat_of_zero_le (neg_nonneg.2 hb)
      obtain rfl : b = -n := by rw [← hn, neg_neg]
      rw [shortened_neg, shortened_natCast, neg_le_neg_iff]
      exact_mod_cast shorten_mono (by omega)

/-- At most half a unit of the last bit is rounded away. -/
theorem shortened_near (n : ℤ) : 2 * |n - shortened n| ≤ 2 ^ (n.natAbs.log2 - 52) := by
  have hnat (m : ℕ) : 2 * |(m : ℤ) - shorten m| ≤ 2 ^ (m.log2 - 52) := by
    obtain ⟨hlow, hhigh⟩ := shorten_near m
    zify at hlow hhigh
    rcases abs_cases ((m : ℤ) - shorten m) with ⟨h, -⟩ | ⟨h, -⟩ <;> rw [h] <;> omega
  obtain ⟨m, rfl | rfl⟩ := n.eq_nat_or_neg
  · rw [shortened_natCast]
    exact hnat m
  · rw [shortened_neg, shortened_natCast, neg_sub_neg, abs_sub_comm, Int.natAbs_neg]
    exact hnat m

/-- Of a 64-bit integer at most the last nine bits are rounded away. -/
theorem abs_sub_shortened_le {n : ℤ} (h : n.natAbs ≤ 2 ^ 63) : |n - shortened n| ≤ 2 ^ 9 := by
  rcases h.lt_or_eq with hlt | heq
  · have hlog : n.natAbs.log2 - 52 ≤ 10 := by
      by_cases hn : n.natAbs = 0
      · simp [hn]
      · have := (Nat.log2_lt hn).2 hlt
        omega
    have hnear := (shortened_near n).trans (pow_le_pow_right₀ one_le_two hlog)
    omega
  · rw [shortened, heq, shorten_two_pow, ← heq, Int.sign_mul_natAbs, sub_self, abs_zero]
    positivity

/-- An integer stays less than another, unless both become the same number. -/
theorem shortened_lt_iff {m n : ℤ} :
    shortened m < shortened n ↔ m < n ∧ shortened m ≠ shortened n := by
  constructor
  · intro h
    exact ⟨lt_of_not_ge fun hle => (shortened_mono hle).not_gt h, h.ne⟩
  · rintro ⟨h, hne⟩
    exact (shortened_mono h.le).lt_of_ne hne

/-- Two 64-bit integers do not become the same number if they lie far apart. -/
theorem shortened_lt_of_far {m n : ℤ} (hm : m.natAbs ≤ 2 ^ 63) (hn : n.natAbs ≤ 2 ^ 63)
    (h : 2 ^ 10 < n - m) : shortened m < shortened n := by
  have hm' := abs_le.1 (abs_sub_shortened_le hm)
  have hn' := abs_le.1 (abs_sub_shortened_le hn)
  omega

end Binary
end Patchbay.Decimal
