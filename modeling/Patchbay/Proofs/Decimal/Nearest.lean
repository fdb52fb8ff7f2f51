import Mathlib.Algebra.Order.Field.Power
import Mathlib.Algebra.Order.Field.Rat
import Mathlib.Tactic.FieldSimp
import Mathlib.Tactic.Linarith
import Mathlib.Tactic.NormNum
import Mathlib.Tactic.Positivity
import Patchbay.Decimal.Binary
/-!
# The double nearest to a fraction

Rounding to 53 bits is rounding to a natural number after scaling by the right power of two. A
fraction in the interval around a double rounds to that double.

## Main definitions

* `Rounds`: a natural number is nearest to a fraction.
* `Binary.Fits`: an integer part and an exponent are those of a double.
* `Binary.Near`: a fraction lies in the interval around a double.

## Main statements

* `roundDiv_eq`: a quotient is rounded to the natural number nearest to it.
* `Binary.round53_eq`: which exponent is used to round to 53 bits.
* `Binary.nearest_eq`: a fraction in the interval around a double rounds to that double.
-/
namespace Patchbay.Decimal

/-! ### Natural numbers near a fraction -/

/-- A natural number is nearest to a fraction, and even if another one is as near. -/
structure Rounds (x : ℚ) (q : ℕ) : Prop where
  near : |x - q| ≤ 1 / 2
  even : |x - q| = 1 / 2 → q % 2 = 0

/-- Only one natural number is nearest. -/
theorem Rounds.unique {x : ℚ} {p q : ℕ} (hp : Rounds x p) (hq : Rounds x q) : p = q := by
  wlog hpq : p ≤ q generalizing p q
  · exact (this hq hp (Nat.le_of_not_le hpq)).symm
  obtain ⟨-, hp₂⟩ := abs_le.1 hp.near
  obtain ⟨hq₁, -⟩ := abs_le.1 hq.near
  have hle : q ≤ p + 1 := by
    have h : (q : ℚ) ≤ (p : ℚ) + 1 := by linarith
    exact_mod_cast h
  rcases Nat.lt_or_eq_of_le hpq with hlt | heq
  · -- two neighbours are as near as each other, and only one of them is even
    obtain rfl : q = p + 1 := Nat.le_antisymm hle hlt
    push_cast at hq₁
    have hp' := hp.even (by rw [abs_of_nonneg (by linarith)]; linarith)
    have hq' := hq.even (by push_cast; rw [abs_of_nonpos (by linarith)]; linarith)
    omega
  · exact heq

/-- A quotient is rounded to a natural number nearest to it. -/
theorem rounds_roundDiv (num : ℕ) {den : ℕ} (h : 0 < den) :
    Rounds ((num : ℚ) / den) (roundDiv num den) := by
  have hdiv := Nat.div_add_mod num den
  have hmod := Nat.mod_lt num h
  simp only [roundDiv]
  generalize num / den = q at *
  generalize num % den = r at *
  have hden : (0 : ℚ) < den := by exact_mod_cast h
  have hx : (num : ℚ) / den = q + r / den := by
    rw [← hdiv]
    push_cast
    field_simp
  have hr₀ : (0 : ℚ) ≤ r / den := by positivity
  have hr₁ : (r : ℚ) / den < 1 := (div_lt_one hden).2 (by exact_mod_cast hmod)
  have hhalf (s : ℚ) : s / den = 1 / 2 ↔ 2 * s = den := by
    rw [div_eq_div_iff hden.ne' two_ne_zero, one_mul, mul_comm]
  rw [hx]
  rcases lt_trichotomy (2 * r) den with hlt | heq | hgt
  · have hlt' : (r : ℚ) / den < 1 / 2 := by
      rw [div_lt_div_iff₀ hden two_pos, one_mul, mul_comm]
      exact_mod_cast hlt
    rw [if_pos hlt]
    have habs : |(q : ℚ) + r / den - q| = r / den := by rw [abs_of_nonneg] <;> linarith
    exact ⟨by rw [habs]; exact hlt'.le, fun he => absurd (habs.symm.trans he) hlt'.ne⟩
  · have heq' : (r : ℚ) / den = 1 / 2 := (hhalf r).2 (by exact_mod_cast heq)
    rw [if_neg (by omega), if_neg (by omega)]
    split
    · next heven =>
      exact ⟨by rw [heq', abs_of_nonneg] <;> linarith, fun _ => heven⟩
    · next hodd =>
      refine ⟨?_, fun _ => by omega⟩
      push_cast
      rw [heq', abs_of_nonpos] <;> linarith
  · have hgt' : 1 / 2 < (r : ℚ) / den := by
      rw [div_lt_div_iff₀ two_pos hden, one_mul, mul_comm]
      exact_mod_cast hgt
    rw [if_neg (by omega), if_pos hgt]
    have habs : |(q : ℚ) + r / den - (q + 1 : ℕ)| = 1 - r / den := by
      push_cast
      rw [abs_of_nonpos] <;> linarith
    exact ⟨by rw [habs]; linarith, fun he => by rw [habs] at he; linarith⟩

/-- A quotient is rounded to the natural number nearest to it. -/
theorem roundDiv_eq {num den q : ℕ} (h : 0 < den) (hq : Rounds ((num : ℚ) / den) q) :
    roundDiv num den = q := (rounds_roundDiv num h).unique hq

/-! ### Scaling -/

theorem scale_den_pos {base den : ℕ} (hb : 0 < base) (hd : 0 < den) (num : ℕ) (e : ℤ) :
    0 < (scale base num den e).2 := by
  rw [scale]
  split
  · exact hd
  · exact Nat.mul_pos hd (Nat.pow_pos hb)

/-- A scaled quotient is the quotient times the power. -/
theorem scale_value {base : ℕ} (hb : 0 < base) (num den : ℕ) (e : ℤ) :
    ((scale base num den e).1 : ℚ) / (scale base num den e).2 =
      (num : ℚ) / den * (base : ℚ) ^ e := by
  have hb' : (base : ℚ) ≠ 0 := by exact_mod_cast hb.ne'
  have hpow (n : ℕ) : ((Nat.pow base n : ℕ) : ℚ) = (base : ℚ) ^ (n : ℤ) := by
    rw [zpow_natCast]
    exact_mod_cast rfl
  rw [scale]
  split
  · next h =>
    rw [Nat.cast_mul, hpow, Int.toNat_of_nonneg h, mul_div_right_comm]
  · next h =>
    rw [Nat.cast_mul, hpow, Int.toNat_of_nonneg (by omega), zpow_neg]
    field_simp

namespace Binary

/-! ### Doubles and the intervals around them -/

/-- An integer part and an exponent are those of a finite double. -/
structure Fits (m : ℕ) (e : ℤ) : Prop where
  bits : m < 2 ^ 53
  least : -1074 ≤ e
  greatest : e ≤ 971
  normal : e = -1074 ∨ 2 ^ 52 ≤ m

/-- How far the interval around a double reaches below it, in units of its last bit. -/
def below (m : ℕ) (e : ℤ) : ℚ := if m = 2 ^ 52 ∧ -1074 < e then 1 / 4 else 1 / 2

/-- A fraction lies in the interval around a double. The ends belong to the interval if the integer
part is even. -/
structure Near (m : ℕ) (e : ℤ) (x : ℚ) : Prop where
  low : (m : ℚ) - below m e ≤ x * 2 ^ (-e)
  high : x * 2 ^ (-e) ≤ m + 1 / 2
  inner : m % 2 = 1 → (m : ℚ) - below m e < x * 2 ^ (-e) ∧ x * 2 ^ (-e) < m + 1 / 2

theorem below_le (m : ℕ) (e : ℤ) : below m e ≤ 1 / 2 := by
  rw [below]
  split <;> norm_num

/-- A fraction in the interval around a double rounds to its integer part. -/
theorem Near.rounds {m : ℕ} {e : ℤ} {x : ℚ} (h : Near m e x) : Rounds (x * 2 ^ (-e)) m := by
  have hbelow := below_le m e
  have hlow := h.low
  have hhigh := h.high
  refine ⟨abs_le.2 ⟨by linarith, by linarith⟩, fun he => ?_⟩
  by_contra hodd
  obtain ⟨hlow, hhigh⟩ := h.inner (by omega)
  have habs : |x * 2 ^ (-e) - m| < 1 / 2 := abs_lt.2 ⟨by linarith, by linarith⟩
  exact habs.ne he

/-! ### The exponent -/

/-- Scaling has one exponent that leads to 53 bits. -/
theorem exponent_unique {x : ℚ} {a b : ℤ} (ha₁ : 2 ^ 52 ≤ x * 2 ^ (-a)) (ha₂ : x * 2 ^ (-a) < 2 ^ 53)
    (hb₁ : 2 ^ 52 ≤ x * 2 ^ (-b)) (hb₂ : x * 2 ^ (-b) < 2 ^ 53) : a = b := by
  wlog hab : a < b generalizing a b
  · rcases lt_trichotomy a b with h | h | h
    · exact this ha₁ ha₂ hb₁ hb₂ h
    · exact h
    · exact (this hb₁ hb₂ ha₁ ha₂ h).symm
  · have htwo : (2 : ℚ) ≤ 2 ^ (b - a) := by
      calc (2 : ℚ) = 2 ^ (1 : ℤ) := (zpow_one 2).symm
        _ ≤ 2 ^ (b - a) := zpow_le_zpow_right₀ one_le_two (by omega)
    have hsplit : x * 2 ^ (-a) = x * 2 ^ (-b) * 2 ^ (b - a) := by
      rw [mul_assoc, ← zpow_add₀ two_ne_zero]
      congr 2
      omega
    have hlt : x * 2 ^ (-b) * 2 ≤ x * 2 ^ (-b) * 2 ^ (b - a) :=
      mul_le_mul_of_nonneg_left htwo (le_trans (by positivity) hb₁)
    linarith

theorem two_zpow_log2_le {n : ℕ} (h : 0 < n) : (2 : ℚ) ^ (n.log2 : ℤ) ≤ n := by
  rw [zpow_natCast]
  exact_mod_cast Nat.log2_self_le h.ne'

theorem lt_two_zpow_log2 (n : ℕ) : (n : ℚ) < 2 ^ ((n.log2 : ℤ) + 1) := by
  have h : n < 2 ^ (n.log2 + 1) := Nat.lt_log2_self
  have h' : (n : ℚ) < 2 ^ (n.log2 + 1) := by exact_mod_cast h
  exact_mod_cast h'

/-- One less in the exponent is twice the scaled value. -/
theorem scale_pred (x : ℚ) (e : ℤ) : x * 2 ^ (-(e - 1)) = 2 * (x * 2 ^ (-e)) := by
  rw [neg_sub, sub_eq_add_neg, zpow_add₀ two_ne_zero, zpow_one]
  exact mul_left_comm _ _ _

/-- The rough exponent is right or one too large. -/
theorem roughExponent_spec {num den : ℕ} (hn : 0 < num) (hd : 0 < den) :
    2 ^ 51 < (num : ℚ) / den * 2 ^ (-roughExponent num den) ∧
      (num : ℚ) / den * 2 ^ (-roughExponent num den) < 2 ^ 53 := by
  have hn' : (0 : ℚ) < num := by exact_mod_cast hn
  have hd' : (0 : ℚ) < den := by exact_mod_cast hd
  have hn₁ := two_zpow_log2_le hn
  have hn₂ := lt_two_zpow_log2 num
  have hd₁ := two_zpow_log2_le hd
  have hd₂ := lt_two_zpow_log2 den
  have hscale : (2 : ℚ) ^ (-roughExponent num den) =
      2 ^ (-(num.log2 : ℤ)) * 2 ^ (den.log2 : ℤ) * 2 ^ (52 : ℤ) := by
    rw [← zpow_add₀ two_ne_zero, ← zpow_add₀ two_ne_zero, roughExponent]
    congr 1
    omega
  rw [zpow_add_one₀ two_ne_zero] at hn₂ hd₂
  rw [hscale, zpow_neg]
  generalize (2 : ℚ) ^ (num.log2 : ℤ) = a at *
  generalize (2 : ℚ) ^ (den.log2 : ℤ) = b at *
  have ha : 0 < a := by linarith
  have hb : 0 < b := by linarith
  have hsplit : (num : ℚ) / den * (a⁻¹ * b * 2 ^ (52 : ℤ)) = num / a * (b / den) * 2 ^ 52 := by
    norm_cast
    field_simp
  have h₁ : 1 ≤ num / a := (one_le_div ha).2 hn₁
  have h₂ : num / a < 2 := (div_lt_iff₀ ha).2 (by linarith)
  have h₃ : 1 / 2 < b / den := by
    rw [div_lt_div_iff₀ two_pos hd']
    linarith
  have h₄ : b / den ≤ 1 := (div_le_one hd').2 hd₁
  rw [hsplit]
  constructor
  · have h := mul_le_mul_of_nonneg_right h₁ (le_trans (by norm_num) h₃.le)
    nlinarith
  · have h := mul_le_mul_of_nonneg_left h₄ (le_trans zero_le_one h₁)
    nlinarith

theorem natDiv_lt_iff {n d k : ℕ} (hd : 0 < d) : n / d < k ↔ (n : ℚ) / d < k := by
  rw [Nat.div_lt_iff_lt_mul hd, div_lt_iff₀ (by exact_mod_cast hd)]
  exact_mod_cast Iff.rfl

/-- Rounding to 53 bits uses the exponent that leads to them. -/
theorem round53_eq {num den : ℕ} (hn : 0 < num) (hd : 0 < den) {e : ℤ}
    (h₁ : 2 ^ 52 ≤ (num : ℚ) / den * 2 ^ (-e)) (h₂ : (num : ℚ) / den * 2 ^ (-e) < 2 ^ 53) :
    round53 num den =
      (roundDiv (scale 2 num den (-e)).1 (scale 2 num den (-e)).2, e) := by
  obtain ⟨hlow, hhigh⟩ := roughExponent_spec hn hd
  have hden := scale_den_pos two_pos hd num (-roughExponent num den)
  have hvalue := scale_value two_pos num den (-roughExponent num den)
  have hsmall : (scale 2 num den (-roughExponent num den)).1 /
      (scale 2 num den (-roughExponent num den)).2 < Nat.pow 2 52 ↔
      (num : ℚ) / den * 2 ^ (-roughExponent num den) < 2 ^ 52 := by
    rw [natDiv_lt_iff hden, hvalue]
    norm_num
  simp only [round53, hsmall]
  split
  · next hlt =>
    obtain rfl : e = roughExponent num den - 1 :=
      exponent_unique h₁ h₂ (by rw [scale_pred]; linarith) (by rw [scale_pred]; linarith)
    rw [neg_sub]
  · next hge =>
    obtain rfl : e = roughExponent num den := exponent_unique h₁ h₂ (not_lt.1 hge) hhigh
    rfl

/-- There is an exponent that leads to 53 bits. -/
theorem exists_exponent {num den : ℕ} (hn : 0 < num) (hd : 0 < den) : ∃ e : ℤ,
    2 ^ 52 ≤ (num : ℚ) / den * 2 ^ (-e) ∧ (num : ℚ) / den * 2 ^ (-e) < 2 ^ 53 := by
  obtain ⟨hlow, hhigh⟩ := roughExponent_spec hn hd
  rcases le_or_gt (2 ^ 52) ((num : ℚ) / den * 2 ^ (-roughExponent num den)) with hge | hlt
  · exact ⟨_, hge, hhigh⟩
  · refine ⟨roughExponent num den - 1, ?_⟩
    rw [scale_pred]
    constructor <;> linarith

/-- A fraction whose scaled value is near a natural number is rounded to it. -/
theorem roundDiv_scale {num den m : ℕ} (hd : 0 < den) {e : ℤ}
    (h : Rounds ((num : ℚ) / den * 2 ^ (-e)) m) :
    roundDiv (scale 2 num den (-e)).1 (scale 2 num den (-e)).2 = m := by
  refine roundDiv_eq (scale_den_pos two_pos hd num (-e)) ?_
  rw [scale_value two_pos]
  exact h

/-! ### The nearest double -/

/-- A number of 54 bits that rounding led to is the least one, and loses its last bit. -/
def carry (p : ℕ × ℤ) : ℕ × ℤ := if p.1 = 2 ^ 53 then (2 ^ 52, p.2 + 1) else p

section Carried
variable {num den q : ℕ} {e : ℤ}

/-- Where the exponent is that of a double, the nearest double is found. -/
theorem nearest_of_carry (hn : 0 < num) (hc : carry (round53 num den) = (q, e)) (hl : -1074 ≤ e)
    (hg : e ≤ 971) (negative : Bool) : nearest negative num den = { value := pack negative q e } := by
  have hq : (carry (round53 num den)).1 = q := congrArg Prod.fst hc
  have he : (carry (round53 num den)).2 = e := congrArg Prod.snd hc
  rw [nearest, if_neg hn.ne']
  change (if 971 < (carry (round53 num den)).2 then _ else
    if -1074 ≤ (carry (round53 num den)).2 then
      Nearest.mk (pack negative (carry (round53 num den)).1 (carry (round53 num den)).2) false false
    else _) = _
  rw [he, hq, if_neg (not_lt.2 hg), if_pos hl]

/-- Where the exponent is too small, digits are lost. -/
theorem nearest_of_lt (hn : 0 < num) (hlt : (carry (round53 num den)).2 < -1074)
    (negative : Bool) : (nearest negative num den).value =
        pack negative (roundDiv (scale 2 num den 1074).1 (scale 2 num den 1074).2) (-1074) ∧
      (nearest negative num den).overflow = false := by
  have hgreat : ¬ 971 < (carry (round53 num den)).2 := by omega
  have hleast : ¬ -1074 ≤ (carry (round53 num den)).2 := by omega
  rw [nearest, if_neg hn.ne']
  change ((if 971 < (carry (round53 num den)).2 then _ else
      if -1074 ≤ (carry (round53 num den)).2 then _ else _ : Nearest).value = _) ∧
    ((if 971 < (carry (round53 num den)).2 then _ else
      if -1074 ≤ (carry (round53 num den)).2 then _ else _ : Nearest).overflow = _)
  rw [if_neg hgreat, if_neg hleast]
  exact ⟨rfl, rfl⟩

end Carried

/-- A fraction below the numbers of 53 bits with the least exponent is rounded to 53 bits with an
exponent that is too small, or to the least of those numbers. -/
theorem carry_of_least {num den m : ℕ} (hn : 0 < num) (hd : 0 < den)
    (h : Near m (-1074) ((num : ℚ) / den))
    (hlt : (num : ℚ) / den * 2 ^ (-(-1074 : ℤ)) < 2 ^ 52) :
    (carry (round53 num den)).2 < -1074 ∨
      carry (round53 num den) = (m, -1074) := by
  obtain ⟨e, h₁, h₂⟩ := exists_exponent hn hd
  rw [round53_eq hn hd h₁ h₂]
  have he : e ≤ -1074 - 1 := by
    by_contra hgt
    have hsplit : (num : ℚ) / den * 2 ^ (-e) * 2 ^ (e - -1074) =
        (num : ℚ) / den * 2 ^ (-(-1074 : ℤ)) := by
      rw [mul_assoc, ← zpow_add₀ two_ne_zero]
      congr 2
      omega
    have hone : (1 : ℚ) ≤ 2 ^ (e - -1074) := one_le_zpow₀ one_le_two (by omega)
    have hle := mul_le_mul_of_nonneg_left hone (le_trans (by norm_num) h₁)
    linarith
  rw [carry]
  split
  · next hfull =>
    rcases lt_or_eq_of_le he with he | rfl
    · exact .inl (by dsimp only; omega)
    refine .inr ?_
    have hround := rounds_roundDiv (scale 2 num den (-(-1074 - 1 : ℤ))).1
      (scale_den_pos two_pos hd num (-(-1074 - 1 : ℤ)))
    dsimp only at hfull
    rw [scale_value two_pos, hfull, Nat.cast_ofNat, scale_pred] at hround
    obtain ⟨hlow, -⟩ := abs_le.1 hround.near
    have hbelow := below_le m (-1074)
    have hhigh := h.high
    have hsmall := h.low
    generalize (num : ℚ) / den * 2 ^ (-(-1074 : ℤ)) = y at *
    push_cast at hlow
    have hge : (2 ^ 52 : ℚ) < m + 1 := by linarith
    have hle : (m : ℚ) < 2 ^ 52 + 1 := by linarith
    have hge' : 2 ^ 52 < m + 1 := by exact_mod_cast hge
    have hle' : m < 2 ^ 52 + 1 := by exact_mod_cast hle
    obtain rfl : m = 2 ^ 52 := by omega
    rfl
  · exact .inl (by dsimp only; omega)

/-- A fraction just below a power of two is rounded to it. -/
theorem carry_of_below {num den m : ℕ} {e : ℤ} (hn : 0 < num) (hd : 0 < den) (hf : Fits m e)
    (hleast : -1074 < e) (h : Near m e ((num : ℚ) / den))
    (hlt : (num : ℚ) / den * 2 ^ (-e) < 2 ^ 52) : carry (round53 num den) = (m, e) := by
  have hlow := h.low
  have hm : m = 2 ^ 52 := by
    have hge : 2 ^ 52 ≤ m := hf.normal.resolve_left hleast.ne'
    have hbelow := below_le m e
    have hle : (m : ℚ) < 2 ^ 52 + 1 := by linarith
    have hle' : m < 2 ^ 52 + 1 := by exact_mod_cast hle
    omega
  have hquarter : below m e = 1 / 4 := if_pos ⟨hm, hleast⟩
  rw [hquarter, hm] at hlow
  push_cast at hlow
  have hround : Rounds ((num : ℚ) / den * 2 ^ (-(e - 1))) (2 ^ 53) := by
    rw [scale_pred]
    refine ⟨?_, fun _ => by norm_num⟩
    push_cast
    rw [abs_of_nonpos (by linarith)]
    linarith
  rw [round53_eq hn hd (e := e - 1) (by rw [scale_pred]; linarith) (by rw [scale_pred]; linarith),
    roundDiv_scale hd hround, carry, if_pos rfl, hm]
  exact congrArg (2 ^ 52, ·) (sub_add_cancel e 1)

/-- A fraction in the interval around a double rounds to that double. -/
theorem nearest_eq {num den m : ℕ} {e : ℤ} (hf : Fits m e) (hm : 0 < m) (hd : 0 < den)
    (h : Near m e ((num : ℚ) / den)) (negative : Bool) :
    (nearest negative num den).value = pack negative m e ∧
      (nearest negative num den).overflow = false := by
  have hbelow := below_le m e
  have hlow := h.low
  have hhigh := h.high
  have hm' : (1 : ℚ) ≤ m := by exact_mod_cast hm
  have hn : 0 < num := by
    rcases Nat.eq_zero_or_pos num with rfl | hn
    · rw [Nat.cast_zero, zero_div, zero_mul] at hlow
      linarith
    · exact hn
  have hbits : (m : ℚ) + 1 ≤ 2 ^ 53 := by exact_mod_cast hf.bits
  have hround : roundDiv (scale 2 num den (-e)).1 (scale 2 num den (-e)).2 = m :=
    roundDiv_scale hd h.rounds
  rcases le_or_gt (2 ^ 52) ((num : ℚ) / den * 2 ^ (-e)) with hge | hlt
  · -- the usual case: the exponent is that of the double
    have hc : carry (round53 num den) = (m, e) := by
      rw [round53_eq hn hd hge (by linarith), hround]
      exact if_neg hf.bits.ne
    rw [nearest_of_carry hn hc hf.least hf.greatest]
    exact ⟨rfl, rfl⟩
  rcases eq_or_lt_of_le hf.least with rfl | hleast
  · -- the least exponent, from which on digits are lost
    rcases carry_of_least hn hd h hlt with hlost | hc
    · have hlast := nearest_of_lt hn hlost negative
      rwa [show (1074 : ℤ) = -(-1074) from rfl, hround] at hlast
    · rw [nearest_of_carry hn hc (le_refl _) (by decide)]
      exact ⟨rfl, rfl⟩
  · -- just below a power of two, where the exponent is one less
    rw [nearest_of_carry hn (carry_of_below hn hd hf hleast h hlt) hf.least hf.greatest]
    exact ⟨rfl, rfl⟩

end Binary
end Patchbay.Decimal
