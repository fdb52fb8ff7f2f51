import Mathlib.Algebra.Order.Field.Power
import Mathlib.Algebra.Order.Field.Rat
import Mathlib.Data.List.TakeWhile
import Mathlib.Data.Nat.Cast.Order.Field
import Mathlib.Tactic.FieldSimp
import Mathlib.Tactic.Linarith
import Mathlib.Tactic.Positivity
import Patchbay.Decimal.Layout
/-!
# Digits of numbers

What the digits of a number say of it, and how digits without the zeros at their end and the exponent
of the first of them are found.

## Main definitions

* `Numeral.Leads`: digits, the first of which is not zero.

## Main statements

* `Numeral.leads_digits`: the digits of a number that is not zero.
* `Decimal.exists_trimZeros`: only zeros are left out at the end.
* `Decimal.leading_spec`: the exponent of the first digit of a quotient.
-/
namespace Patchbay
namespace Numeral

/-- Digits, the first of which is not zero. -/
structure Leads (ds : List Char) : Prop where
  first : ∃ c cs, ds = c :: cs ∧ c ≠ '0'
  digits : ∀ c ∈ ds, c.isDigit = true

theorem ofDigits_eq (ds : List Char) : ofDigits ds = Nat.ofDigitChars 10 ds 0 := rfl

theorem ofDigits_append (a b : List Char) :
    ofDigits (a ++ b) = 10 ^ b.length * ofDigits a + ofDigits b := by
  rw [ofDigits_eq, Nat.ofDigitChars_append, Nat.ofDigitChars_eq_ofDigitChars_zero]
  rfl

theorem ofDigits_zeros (n : ℕ) : ofDigits (List.replicate n '0') = 0 := by
  rw [ofDigits_eq, Nat.ofDigitChars_replicate_zero, Nat.mul_zero]

theorem ofDigits_append_zeros (ds : List Char) (n : ℕ) :
    ofDigits (ds ++ List.replicate n '0') = 10 ^ n * ofDigits ds := by
  rw [ofDigits_append, ofDigits_zeros, List.length_replicate, Nat.add_zero]

theorem ofDigits_zeros_append (n : ℕ) (ds : List Char) :
    ofDigits (List.replicate n '0' ++ ds) = ofDigits ds := by
  rw [ofDigits_append, ofDigits_zeros, Nat.mul_zero, Nat.zero_add]

@[simp] theorem ofDigits_digits (n : ℕ) : ofDigits (digits n) = n := Nat.ofDigitChars_ten_toDigits

theorem digits_ne_nil (n : ℕ) : digits n ≠ [] := Nat.toDigits_ne_nil

theorem isDigit_of_mem_digits {n : ℕ} {c : Char} (h : c ∈ digits n) : c.isDigit = true :=
  Nat.isDigit_of_mem_toDigits (by decide) (by decide) h

theorem lt_pow_length_digits (n : ℕ) : n < 10 ^ (digits n).length :=
  (Nat.length_toDigits_le_iff (by decide) Nat.length_toDigits_pos).1 (Nat.le_refl _)

theorem pow_length_digits_le {n : ℕ} (hn : 0 < n) : 10 ^ ((digits n).length - 1) ≤ n := by
  by_contra hlt
  have hpos : 0 < (digits n).length := Nat.length_toDigits_pos
  rcases Nat.eq_zero_or_pos ((digits n).length - 1) with h | h
  · rw [h] at hlt
    omega
  · have hle := (Nat.length_toDigits_le_iff (b := 10) (by decide) h).2 (Nat.not_le.1 hlt)
    change (digits n).length ≤ (digits n).length - 1 at hle
    omega

/-- A number that is not zero does not begin with a zero. -/
theorem leads_digits {n : ℕ} (hn : 0 < n) : Leads (digits n) := by
  refine ⟨?_, fun c => isDigit_of_mem_digits⟩
  induction n using Nat.strongRecOn with
  | ind n ih =>
    rcases Nat.lt_or_ge n 10 with hlt | hge
    · refine ⟨n.digitChar, [], Nat.toDigits_of_lt_base hlt, fun h => ?_⟩
      have htoNat := Nat.toNat_digitChar_of_lt_ten hlt
      rw [h] at htoNat
      have h48 : 48 = 48 + n := htoNat
      omega
    · obtain ⟨c, cs, hcs, hc⟩ := ih (n / 10) (by omega) (by omega)
      refine ⟨c, cs ++ [(n % 10).digitChar], ?_, hc⟩
      have hsplit := Nat.toDigits_of_base_le (b := 10) (by decide) hge
      change digits n = digits (n / 10) ++ _ at hsplit
      rw [hsplit, hcs]
      rfl

theorem Leads.ne_nil {ds : List Char} (h : Leads ds) : ds ≠ [] := by
  obtain ⟨c, cs, rfl, -⟩ := h.first
  exact List.cons_ne_nil c cs

end Numeral

namespace Decimal
open Numeral

/-- Only zeros are left out at the end. -/
theorem exists_trimZeros {ds : List Char} (h : Leads ds) :
    ∃ n, ds = trimZeros ds ++ List.replicate n '0' ∧ Leads (trimZeros ds) := by
  let kept := (ds.reverse.dropWhile (· = '0')).reverse
  let zeros := (ds.reverse.takeWhile (· = '0')).reverse
  have hsplit : ds = kept ++ zeros := by
    rw [← List.reverse_append, List.takeWhile_append_dropWhile, List.reverse_reverse]
  have hzeros : zeros = List.replicate zeros.length '0' :=
    List.eq_replicate_of_mem fun c hc => by
      simpa using List.mem_takeWhile_imp (List.mem_reverse.1 hc)
  have hkept : ∃ c cs, kept = c :: cs := by
    cases hk : kept with
    | cons c cs => exact ⟨c, cs, rfl⟩
    | nil =>
      obtain ⟨c, cs, hds, hc⟩ := h.first
      rw [hk, List.nil_append, hzeros] at hsplit
      exact absurd (List.eq_of_mem_replicate (hsplit ▸ hds ▸ List.mem_cons_self)) hc
  have htrim : trimZeros ds = kept := by
    obtain ⟨c, cs, hk⟩ := hkept
    rw [trimZeros]
    split
    · next hnil => exact absurd (hk.symm.trans hnil) (List.cons_ne_nil c cs)
    · rfl
  refine ⟨zeros.length, ?_, ?_, fun c hc => ?_⟩
  · rw [htrim, ← hzeros]
    exact hsplit
  · obtain ⟨c, cs, hk⟩ := hkept
    obtain ⟨d, ds', hds, hd⟩ := h.first
    rw [hds, hk] at hsplit
    exact ⟨c, cs, htrim.trans hk, (List.cons.inj hsplit).1 ▸ hd⟩
  · rw [htrim] at hc
    exact h.digits c (hsplit ▸ List.mem_append_left zeros hc)

/-- The exponent of the first digit of a quotient. -/
theorem leading_spec {num den : ℕ} (hn : 0 < num) (hd : 0 < den) :
    (10 : ℚ) ^ leading num den ≤ num / den ∧ (num : ℚ) / den < 10 ^ (leading num den + 1) := by
  have hn' : (0 : ℚ) < num := by exact_mod_cast hn
  have hd' : (0 : ℚ) < den := by exact_mod_cast hd
  have hten {k : ℕ} (hk : 0 < k) : (10 : ℚ) ^ (((digits k).length : ℤ) - 1) ≤ k := by
    have hlength : 0 < (digits k).length := Nat.length_toDigits_pos
    rw [show ((digits k).length : ℤ) - 1 = (((digits k).length - 1 : ℕ) : ℤ) by omega,
      zpow_natCast]
    exact_mod_cast pow_length_digits_le hk
  have hten' (k : ℕ) : (k : ℚ) + 1 ≤ 10 ^ ((digits k).length : ℤ) := by
    rw [zpow_natCast]
    exact_mod_cast lt_pow_length_digits k
  -- a quotient and its integer part
  have hfloor {a b : ℕ} (hb : 0 < b) : ((a / b : ℕ) : ℚ) ≤ a / b ∧ (a : ℚ) / b < (a / b : ℕ) + 1 := by
    refine ⟨Nat.cast_div_le, ?_⟩
    rw [div_lt_iff₀ (by exact_mod_cast hb), mul_comm]
    exact_mod_cast Nat.lt_mul_div_succ a hb
  rw [leading]
  split
  · next hle =>
    obtain ⟨h₁, h₂⟩ := hfloor (a := num) hd
    rw [sub_add_cancel]
    exact ⟨(hten (Nat.div_pos hle hd)).trans h₁, h₂.trans_le (hten' _)⟩
  · next hlt =>
    obtain ⟨h₁, h₂⟩ := hfloor (a := den) hn
    have hlow := (hten (Nat.div_pos (by omega) hn)).trans h₁
    have hhigh := h₂.trans_le (hten' (den / num))
    have hlength : 0 < (digits (den / num)).length := Nat.length_toDigits_pos
    generalize (digits (den / num)).length = l at *
    have hflip : (num : ℚ) / den = ((den : ℚ) / num)⁻¹ := (inv_div _ _).symm
    have hpos : (0 : ℚ) < (den : ℚ) / num := by positivity
    have hle : (num : ℚ) / den ≤ 10 ^ (1 - (l : ℤ)) := by
      rw [hflip, ← neg_sub, zpow_neg]
      exact inv_anti₀ (by positivity) hlow
    have hgt : (10 : ℚ) ^ (-(l : ℤ)) < num / den := by
      rw [hflip, zpow_neg]
      exact inv_strictAnti₀ hpos hhigh
    have hexact : den ≤ num * Nat.pow 10 (l - 1) ↔ (10 : ℚ) ^ (1 - (l : ℤ)) ≤ num / den := by
      rw [← neg_sub, zpow_neg, hflip, inv_le_inv₀ (by positivity) hpos, div_le_iff₀ hn',
        show (l : ℤ) - 1 = ((l - 1 : ℕ) : ℤ) by omega, zpow_natCast, mul_comm]
      exact_mod_cast Iff.rfl
    simp only [hexact]
    split
    · next hge =>
      refine ⟨hge, hle.trans_lt ?_⟩
      exact zpow_lt_zpow_right₀ (by norm_num) (by omega)
    · next hless =>
      refine ⟨hgt.le, ?_⟩
      rw [show -(l : ℤ) + 1 = 1 - l by omega]
      exact not_le.1 hless

end Decimal
end Patchbay
