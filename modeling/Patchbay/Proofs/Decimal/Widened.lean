import Mathlib
import Patchbay.Value
import Patchbay.Proofs.Decimal.Shortened
/-!
# Integers as doubles

An integer becomes a double by rounding it to 53 significant bits. Short integers take another way
there than long ones, but on both ways a mantissa is shifted, with two bits that tell what was lost,
and rounded at the end. The order of the doubles is then the order of the rounded integers.

## Main definitions

* `Binary.Locates`: a mantissa and the two bits behind it tell where a fraction lies.
* `Binary.Stands`: a double stands for an integer, in units of the last bit of the number one.

## Main statements

* `Binary.roundedMantissa_shiftRight`: to shift and round is to divide and round.
* `Binary.Stands.lt_iff`: doubles are ordered as the integers they stand for.
* `Binary.stands_ofInt`: what an integer comes to as a double.
* `Binary.ofInt_lt_ofInt_iff`: how integers are compared as doubles.
-/
namespace Patchbay.Decimal

/-- What is less than a half away is nearest. -/
theorem Rounds.of_lt {x : ℚ} {q : ℕ} (h : |x - q| < 1 / 2) : Rounds x q :=
  ⟨h.le, fun he => absurd he h.ne⟩

namespace Binary
open Float.Model Float.Model.UnpackedFloat

/-! ### Shifting and rounding -/

/-- A mantissa and the two bits behind it tell where a fraction lies: one bit says whether it is in
the upper half, the other whether it is off the ends of the halves. -/
structure Locates (em : ExtendedMantissa) (x : ℚ) : Prop where
  low : em.mantissa ≤ x
  high : x < em.mantissa + 1
  upper : em.roundBit = true ↔ em.mantissa + 1 / 2 ≤ x
  inner : em.stickyBit = true ↔ x ≠ em.mantissa ∧ x ≠ em.mantissa + 1 / 2

variable {em : ExtendedMantissa} {x : ℚ}

/-- The two bits together say whether there is anything behind the mantissa. -/
theorem Locates.inexact (h : Locates em x) :
    (em.roundBit || em.stickyBit) = true ↔ x ≠ em.mantissa := by
  rw [Bool.or_eq_true, h.upper, h.inner]
  constructor
  · rintro (hupper | ⟨hne, -⟩)
    · exact (show (em.mantissa : ℚ) < x by linarith).ne'
    · exact hne
  · intro hne
    by_cases hupper : (em.mantissa : ℚ) + 1 / 2 ≤ x
    · exact .inl hupper
    · exact .inr ⟨hne, fun h => hupper h.ge⟩

/-- To shift by one bit halves the fraction. -/
theorem Locates.shiftRightOne (h : Locates em x) : Locates em.shiftRightOne (x / 2) := by
  have hinexact := h.inexact
  obtain ⟨hlow, hhigh, -, -⟩ := h
  have hcast : (em.mantissa : ℚ) = 2 * (em.mantissa / 2 : ℕ) + (em.mantissa % 2 : ℕ) := by
    exact_mod_cast (Nat.div_add_mod em.mantissa 2).symm
  have hround : em.shiftRightOne.roundBit = true ↔ em.mantissa % 2 ≠ 0 := bne_iff_ne
  have hsticky : em.shiftRightOne.stickyBit = true ↔ x ≠ em.mantissa := hinexact
  have hmantissa : em.shiftRightOne.mantissa = em.mantissa / 2 := rfl
  rcases Nat.mod_two_eq_zero_or_one em.mantissa with hbit | hbit
  · rw [hbit, Nat.cast_zero, add_zero] at hcast
    refine ⟨?_, ?_, ?_, ?_⟩
    · rw [hmantissa]; linarith
    · rw [hmantissa]; linarith
    · rw [hround, hmantissa]
      exact iff_of_false (fun hne => hne hbit) (fun hle => by linarith)
    · rw [hsticky, hmantissa]
      refine ⟨fun hne => ⟨fun heq => hne ?_, fun heq => ?_⟩, fun hne heq => hne.1 ?_⟩ <;> linarith
  · rw [hbit, Nat.cast_one] at hcast
    refine ⟨?_, ?_, ?_, ?_⟩
    · rw [hmantissa]; linarith
    · rw [hmantissa]; linarith
    · rw [hround, hmantissa]
      exact iff_of_true (by omega) (by linarith)
    · rw [hsticky, hmantissa]
      refine ⟨fun hne => ⟨fun heq => ?_, fun heq => hne ?_⟩, fun hne heq => hne.2 ?_⟩ <;> linarith

theorem Locates.shiftRight (h : Locates em x) (k : ℕ) : Locates (em >>> k) (x / 2 ^ k) := by
  change Locates (k.repeat ExtendedMantissa.shiftRightOne em) (x / 2 ^ k)
  induction k with
  | zero => simpa [Nat.repeat] using h
  | succ k ih =>
    rw [Nat.repeat, pow_succ, ← div_div]
    exact ih.shiftRightOne

/-- The mantissa is rounded to the natural number nearest to the fraction. -/
theorem Locates.rounds (h : Locates em x) : Rounds x em.roundedMantissa := by
  obtain ⟨m, round, sticky⟩ := em
  obtain ⟨hlow, hhigh, hupper, hinner⟩ := h
  simp only at hlow hhigh hupper hinner
  cases round with
  | false =>
    have hhalf : x < m + 1 / 2 := by simpa using hupper
    have habs : |x - m| < 1 / 2 := by rw [abs_of_nonneg] <;> linarith
    cases sticky with
    | false => exact .of_lt habs
    | true => exact .of_lt habs
  | true =>
    have hhalf : m + 1 / 2 ≤ x := by simpa using hupper
    cases sticky with
    | false =>
      -- The fraction lies in the middle, and the even neighbour is chosen.
      have hmiddle : x = m + 1 / 2 := by
        by_contra hne
        exact Bool.false_ne_true (hinner.2 ⟨by linarith, hne⟩)
      change Rounds x (m + m % 2)
      rcases Nat.mod_two_eq_zero_or_one m with hbit | hbit
      · refine ⟨?_, fun _ => by omega⟩
        rw [hbit, add_zero, hmiddle, abs_of_nonneg] <;> linarith
      · refine ⟨?_, fun _ => by omega⟩
        rw [hbit, hmiddle, Nat.cast_add, Nat.cast_one, abs_of_nonpos] <;> linarith
    | true =>
      have hinside : x ≠ m + 1 / 2 := (hinner.1 rfl).2
      have hlt : m + 1 / 2 < x := lt_of_le_of_ne hhalf hinside.symm
      change Rounds x (m + 1)
      refine .of_lt ?_
      rw [Nat.cast_add, Nat.cast_one, abs_of_nonpos] <;> linarith

/-- A mantissa that is shifted is rounded to the nearest natural number. -/
theorem roundedMantissa_shiftRight (m k : ℕ) :
    (ExtendedMantissa.ofMantissaAndAccuracy m .exact >>> k).roundedMantissa =
      roundDiv m (2 ^ k) := by
  have hexact : Locates (ExtendedMantissa.ofMantissaAndAccuracy m .exact) m :=
    ⟨le_refl _, lt_add_one _,
      iff_of_false nofun fun hle : (m : ℚ) + 1 / 2 ≤ m => by linarith,
      iff_of_false nofun fun hne => hne.1 rfl⟩
  have hrounds := (hexact.shiftRight k).rounds
  refine (roundDiv_eq (Nat.two_pow_pos k) ?_).symm
  push_cast
  exact hrounds

/-! ### What a double stands for -/

/-- A double stands for an integer, which is counted in units of `2 ^ (-52)`. -/
inductive Stands : UnpackedFloat → ℤ → Prop where
  | zero (s : Sign) : Stands (.zero s) 0
  | finite (s : Sign) {m : ℕ} {e : ℤ} (hm : 0 < m) (low : 2 ^ 52 ≤ m) (high : m < 2 ^ 53)
      (least : -52 ≤ e) (greatest : e ≤ 971) :
      Stands (.finite s m e hm) (s.apply (m * 2 ^ (e + 52).toNat : ℕ))

variable {u v : UnpackedFloat} {a b : ℤ}

theorem Stands.neg (h : Stands u a) : Stands u.neg (-a) := by
  cases h with
  | zero s => exact .zero (-s)
  | finite s hm low high least greatest =>
    cases s with
    | negative =>
      change Stands _ (- -_)
      rw [neg_neg]
      exact .finite .positive hm low high least greatest
    | positive => exact .finite .negative hm low high least greatest

theorem targetExponent_eq (m : ℕ) (e : ℤ) :
    Format.binary64.targetExponent (totalExponent m e) = max (m.log2 + e - 52) (-1074) := by
  have hbits : (Format.binary64.mantissaBits : ℤ) = 53 := rfl
  have hmin : Format.binary64.minExponent = -1074 := rfl
  rw [Format.targetExponent, totalExponent, hbits, hmin]
  congr 1
  omega

/-- A mantissa of 53 bits is not shifted. -/
theorem shiftToTargetExponent_of_log2 {m : ℕ} {e : ℤ} (h : m.log2 = 52) (he : -1074 ≤ e) :
    shiftToTargetExponent Format.binary64 m e .exact = (⟨m, false, false⟩, e) := by
  have ht : Format.binary64.targetExponent (totalExponent m e) = e := by
    rw [targetExponent_eq, h]
    omega
  rw [shiftToTargetExponent, ht, shiftToExponent, sub_self]
  simp [ExtendedMantissa.ofMantissaAndAccuracy, HShiftRight.hShiftRight, Nat.repeat]

/-- A mantissa of one bit more is shifted by one. -/
theorem shiftToTargetExponent_two_pow {e : ℤ} (he : -1074 ≤ e) :
    shiftToTargetExponent Format.binary64 (2 ^ 53) e .exact = (⟨2 ^ 52, false, false⟩, e + 1) := by
  have ht : Format.binary64.targetExponent (totalExponent (2 ^ 53) e) = e + 1 := by
    rw [targetExponent_eq, Nat.log2_two_pow]
    omega
  rw [shiftToTargetExponent, ht, shiftToExponent, add_sub_cancel_left]
  rfl

section Rounding
variable {m r : ℕ} {e f : ℤ}

/-- A long mantissa is shifted until 53 bits are left, and rounded. -/
theorem shiftToTargetExponent_of_le (hm : 52 ≤ m.log2) (hf : e + (m.log2 - 52 : ℕ) = f)
    (least : -52 ≤ f) :
    (shiftToTargetExponent Format.binary64 m e .exact).1.roundedMantissa =
        roundDiv m (2 ^ (m.log2 - 52)) ∧
      (shiftToTargetExponent Format.binary64 m e .exact).2 = f := by
  have hshift : (max (m.log2 + e - 52) (-1074) - e).toNat = m.log2 - 52 := by omega
  rw [shiftToTargetExponent, targetExponent_eq, shiftToExponent, hshift]
  exact ⟨roundedMantissa_shiftRight m _, hf⟩

/-- A mantissa is shifted, rounded and shifted again. -/
theorem roundWithAccuracy_eq (s : Sign) {q : ℕ} {g : ℤ} (hm : 52 ≤ m.log2)
    (hr : roundDiv m (2 ^ (m.log2 - 52)) = r) (hf : e + (m.log2 - 52 : ℕ) = f) (least : -52 ≤ f)
    (hq : shiftToTargetExponent Format.binary64 r f .exact = (⟨q, false, false⟩, g))
    (hpos : 0 < q) : roundWithAccuracy Format.binary64 s m e .exact = .finite s q g hpos := by
  obtain ⟨hround, hexp⟩ := shiftToTargetExponent_of_le hm hf least
  unfold roundWithAccuracy
  generalize shiftToTargetExponent Format.binary64 m e .exact = shifted at hround hexp ⊢
  obtain ⟨em, f'⟩ := shifted
  obtain rfl : f' = f := hexp
  dsimp only at hround ⊢
  rw [hround, hr, hq]
  exact dif_neg hpos.ne'

theorem roundWithAccuracy_of_lt (s : Sign) (hm : 52 ≤ m.log2)
    (hr : roundDiv m (2 ^ (m.log2 - 52)) = r) (hf : e + (m.log2 - 52 : ℕ) = f) (least : -52 ≤ f)
    (hpos : 0 < r) (hlt : r < 2 ^ 53) :
    roundWithAccuracy Format.binary64 s m e .exact = .finite s r f hpos := by
  have hlog : r.log2 = 52 := (Nat.log2_eq_iff hpos.ne').2 ⟨hr ▸ (roundDiv_bounds hm).1, hlt⟩
  exact roundWithAccuracy_eq s hm hr hf least (shiftToTargetExponent_of_log2 hlog (by omega)) hpos

/-- A mantissa that gets one bit more when it is rounded is shifted once more. -/
theorem roundWithAccuracy_of_eq (s : Sign) (hm : 52 ≤ m.log2)
    (hr : roundDiv m (2 ^ (m.log2 - 52)) = 2 ^ 53) (hf : e + (m.log2 - 52 : ℕ) = f)
    (least : -52 ≤ f) :
    roundWithAccuracy Format.binary64 s m e .exact =
      .finite s (2 ^ 52) (f + 1) (Nat.two_pow_pos 52) :=
  roundWithAccuracy_eq s hm hr hf least (shiftToTargetExponent_two_pow (by omega)) _

/-- A long mantissa with an exponent is rounded to 53 bits. -/
theorem stands_roundWithAccuracy (s : Sign) (hm : 52 ≤ m.log2) (least : 0 ≤ m.log2 + e)
    (greatest : m.log2 + e ≤ 1022) :
    Stands (roundWithAccuracy Format.binary64 s m e .exact)
      (s.apply (roundDiv m (2 ^ (m.log2 - 52)) * 2 ^ (m.log2 + e).toNat : ℕ)) := by
  obtain ⟨f, hf⟩ : ∃ f : ℤ, e + (m.log2 - 52 : ℕ) = f := ⟨_, rfl⟩
  obtain ⟨hleast, hmost⟩ := roundDiv_bounds hm
  have hexp : (m.log2 + e).toNat = (f + 52).toNat := by omega
  rw [hexp]
  rcases hmost.lt_or_eq with hlt | heq
  · rw [roundWithAccuracy_of_lt s hm rfl hf (by omega) (by omega) hlt]
    exact .finite s _ hleast hlt (by omega) (by omega)
  · have hcarry : 2 ^ 53 * 2 ^ (f + 52).toNat = 2 ^ 52 * 2 ^ (f + 1 + 52).toNat := by
      rw [← pow_add, ← pow_add]
      congr 1
      omega
    rw [roundWithAccuracy_of_eq s hm heq hf (by omega), heq, hcarry]
    exact .finite s _ (le_refl _) (by norm_num) (by omega) (by omega)

end Rounding

/-- A double of 53 bits is the same after packing. -/
theorem unpack_pack_finite (s : Sign) {m : ℕ} {e : ℤ} (hm : 0 < m) (low : 2 ^ 52 ≤ m)
    (high : m < 2 ^ 53) (least : -1022 ≤ e + 52) (greatest : e ≤ 971) :
    (Float.Model.pack (.finite s m e hm)).unpack = .finite s m e hm := by
  have hlog : m.log2 + 1 = Format.binary64.mantissaBits :=
    congrArg (· + 1) ((Nat.log2_eq_iff hm.ne').2 ⟨low, high⟩)
  obtain ⟨k, hk⟩ : ∃ k : ℕ, (k : ℤ) = e + 1075 := ⟨(e + 1075).toNat, by omega⟩
  have hbiased : (e + Format.binary64.exponentBias +
      Format.binary64.mantissaBitsWithoutImplicit).toNat = k := by
    change (e + 1023 + 52).toNat = k
    omega
  have hpack : (UnpackedFloat.pack Format.binary64 (.finite s m e hm)) =
      packComponents Format.binary64 s (BitVec.ofNat _ k) (BitVec.ofNat _ m) := by
    unfold UnpackedFloat.pack
    simp only [hbiased]
    rw [if_neg (show ¬ 2 ^ 11 ≤ k + 1 by omega), if_pos hlog]
  change UnpackedFloat.unpack Format.binary64 (UnpackedFloat.pack Format.binary64 _) = _
  rw [hpack]
  unfold UnpackedFloat.unpack
  simp only [unpackExponent_packComponents, unpackMantissa_packComponents,
    unpackSign_packComponents, Sign.ofBitVec_toBitVec]
  have hexponent : (BitVec.ofNat 11 k).toNat = k := Nat.mod_eq_of_lt (by omega)
  have hne : BitVec.ofNat 11 k ≠ -1#11 := by
    intro h
    have hk' : (BitVec.ofNat 11 k).toNat = 2047 := congrArg BitVec.toNat h
    omega
  have hne' : BitVec.ofNat 11 k ≠ 0#11 := by
    intro h
    have hk' : (BitVec.ofNat 11 k).toNat = 0 := congrArg BitVec.toNat h
    omega
  have hmantissa : (1#1 ++ BitVec.ofNat 52 m).toNat = m := by
    rw [BitVec.toNat_append, ← Nat.shiftLeft_add_eq_or_of_lt (BitVec.isLt _), Nat.shiftLeft_eq]
    change 1 * 2 ^ 52 + m % 2 ^ 52 = m
    omega
  have hvalue : ((BitVec.ofNat 11 k).toNat : ℤ) - ((1023 : ℕ) + (52 : ℕ)) = e := by omega
  rw [if_neg hne, if_neg hne', UnpackedFloat.finite.injEq]
  exact ⟨rfl, hmantissa, hvalue⟩

/-- Packing keeps what a double stands for. -/
theorem Stands.unpack_pack (h : Stands u a) : Stands (Float.Model.pack u).unpack a := by
  cases h with
  | zero s =>
    have hzero : (Float.Model.pack (.zero s)).unpack = .zero s := unpack_packedZero
    rw [hzero]
    exact .zero s
  | finite s hm low high least greatest =>
    rw [unpack_pack_finite s hm low high (by omega) greatest]
    exact .finite s hm low high least greatest

/-- Doubles with different exponents are ordered by these, as long as both have 53 bits. -/
theorem compare_then_compare {m n : ℕ} {e f : ℤ} (hm : 2 ^ 52 ≤ m) (hm' : m < 2 ^ 53)
    (hn : 2 ^ 52 ≤ n) (hn' : n < 2 ^ 53) (he : -52 ≤ e) (hf : -52 ≤ f) :
    (compare e f).then (compare m n) =
      compare (m * 2 ^ (e + 52).toNat) (n * 2 ^ (f + 52).toNat) := by
  have hpos (i : ℕ) : 0 < 2 ^ i := Nat.two_pow_pos i
  have hlt {m n : ℕ} {e f : ℤ} (hm' : m < 2 ^ 53) (hn : 2 ^ 52 ≤ n) (he : -52 ≤ e) (hef : e < f) :
      m * 2 ^ (e + 52).toNat < n * 2 ^ (f + 52).toNat := by
    calc
      m * 2 ^ (e + 52).toNat < 2 ^ 53 * 2 ^ (e + 52).toNat :=
        Nat.mul_lt_mul_of_pos_right hm' (hpos _)
      _ = 2 ^ 52 * 2 ^ (e + 53).toNat := by
        rw [← pow_add, ← pow_add]
        congr 1
        omega
      _ ≤ n * 2 ^ (f + 52).toNat :=
        Nat.mul_le_mul hn (Nat.pow_le_pow_right two_pos (by omega))
  rcases lt_trichotomy e f with hef | rfl | hef
  · rw [compare_lt_iff_lt.2 hef, compare_lt_iff_lt.2 (hlt hm' hn he hef)]
    rfl
  · rw [compare_eq_iff_eq.2 rfl, Ordering.eq_then]
    rcases lt_trichotomy m n with hmn | rfl | hmn
    · rw [compare_lt_iff_lt.2 hmn, compare_lt_iff_lt.2 (Nat.mul_lt_mul_of_pos_right hmn (hpos _))]
    · rw [compare_eq_iff_eq.2 rfl, compare_eq_iff_eq.2 rfl]
    · rw [compare_gt_iff_gt.2 hmn, compare_gt_iff_gt.2 (Nat.mul_lt_mul_of_pos_right hmn (hpos _))]
  · rw [compare_gt_iff_gt.2 hef, compare_gt_iff_gt.2 (hlt hn' hm hf hef)]
    rfl

/-- The order of doubles is the order of what they stand for. -/
theorem Stands.lt_iff (hu : Stands u a) (hv : Stands v b) : u.lt v = true ↔ a < b := by
  have hpos {m : ℕ} (hm : 0 < m) (i : ℕ) : (0 : ℤ) < (m * 2 ^ i : ℕ) := by
    exact_mod_cast Nat.mul_pos hm (Nat.two_pow_pos i)
  rw [UnpackedFloat.lt, beq_iff_eq]
  cases hu with
  | zero s =>
    cases hv with
    | zero t => exact iff_of_false nofun (lt_irrefl 0)
    | finite t hn low high least greatest =>
      cases t with
      | negative => exact iff_of_false nofun (neg_neg_of_pos (hpos hn _)).not_gt
      | positive => exact iff_of_true rfl (hpos hn _)
  | finite s hm low high least greatest =>
    cases hv with
    | zero t =>
      cases s with
      | negative => exact iff_of_true rfl (neg_neg_of_pos (hpos hm _))
      | positive => exact iff_of_false nofun (hpos hm _).not_gt
    | finite t hn low' high' least' greatest' =>
      have hcompare := compare_then_compare low high low' high' least least'
      cases s with
      | negative =>
        cases t with
        | negative =>
          change some (Ordering.swap _) = _ ↔ -_ < -_
          rw [hcompare, Nat.compare_swap, Option.some.injEq, compare_lt_iff_lt, neg_lt_neg_iff,
            Int.ofNat_lt]
        | positive => exact iff_of_true rfl ((neg_neg_of_pos (hpos hm _)).trans (hpos hn _))
      | positive =>
        cases t with
        | negative =>
          exact iff_of_false nofun ((neg_neg_of_pos (hpos hn _)).trans (hpos hm _)).not_gt
        | positive =>
          change some _ = _ ↔ _ < _
          rw [hcompare, Option.some.injEq, compare_lt_iff_lt]
          exact Int.ofNat_lt.symm

/-! ### Integers -/

/-- To multiply by one changes nothing. -/
theorem Stands.mul_one (h : Stands u a) :
    Stands (mul Format.binary64 u (.finite .positive (2 ^ 52) (-52) (Nat.two_pow_pos 52))) a := by
  cases h with
  | zero s => exact .zero _
  | @finite s m e hm low high least greatest =>
    have hlog : (m * 2 ^ 52).log2 = 104 := (Nat.log2_eq_iff (by omega)).2 (by omega)
    have hround : roundWithAccuracy Format.binary64 s (m * 2 ^ 52) (e + -52) .exact =
        .finite s m e hm := by
      refine roundWithAccuracy_of_lt s (by omega) ?_ (by omega) least hm high
      rw [hlog]
      exact roundDiv_mul m (by norm_num)
    have hsign : s * .positive = s := by cases s <;> rfl
    change Stands (roundWithAccuracy _ (s * .positive) _ _ _) _
    rw [hsign, hround]
    exact .finite s hm low high least greatest

/-- How a natural number is shortened does not depend on the zeros that are written behind it. -/
theorem roundDiv_shifted {n k : ℕ} (hk : 52 ≤ n.log2 + k) :
    roundDiv (n * 2 ^ k) (2 ^ (n.log2 + k - 52)) * 2 ^ n.log2 = shorten n * 2 ^ 52 := by
  rcases le_total 52 n.log2 with hlong | hshort
  · obtain ⟨i, hi⟩ := Nat.exists_eq_add_of_le hlong
    have hunit : n.log2 + k - 52 = i + k := by omega
    rw [hunit, pow_add, roundDiv_mul_mul n (Nat.two_pow_pos i) (Nat.two_pow_pos k), shorten, hi,
      Nat.add_sub_cancel_left, pow_add]
    ring
  · obtain ⟨i, hi⟩ := Nat.exists_eq_add_of_le hshort
    obtain ⟨j, rfl⟩ : ∃ j, k = i + j := Nat.exists_eq_add_of_le (by omega)
    have hunit : n.log2 + (i + j) - 52 = j := by omega
    have hzero : n.log2 - 52 = 0 := by omega
    rw [hunit, pow_add, ← mul_assoc, roundDiv_mul _ (Nat.two_pow_pos j), shorten, hzero, pow_zero,
      roundDiv_one, hi, pow_add]
    ring

/-- A natural number with zeros behind it, which the exponent takes away again, is shortened. -/
theorem stands_shifted {n k : ℕ} (hn : n ≠ 0) (hlog : n.log2 ≤ 63) (hk : 52 ≤ n.log2 + k) :
    Stands (roundWithAccuracy Format.binary64 .positive (n * 2 ^ k) (-k) .exact)
      (shorten n * 2 ^ 52 : ℕ) := by
  have hlog' : (n * 2 ^ k).log2 = n.log2 + k := by
    have hpos := Nat.two_pow_pos k
    rw [Nat.log2_eq_iff (Nat.mul_ne_zero hn hpos.ne'), Nat.add_right_comm, pow_add, pow_add]
    exact ⟨Nat.mul_le_mul_right _ (Nat.log2_self_le hn),
      Nat.mul_lt_mul_of_pos_right Nat.lt_log2_self hpos⟩
  have hstands := stands_roundWithAccuracy .positive (m := n * 2 ^ k) (e := -k) (by omega)
    (by omega) (by omega)
  have hexp : ((n.log2 + k : ℕ) + -(k : ℤ)).toNat = n.log2 := by omega
  rw [hlog', hexp, roundDiv_shifted hk] at hstands
  exact hstands

theorem unpacked_ofNat {n k : ℕ} (hn : 0 < n) (hk : n.log2 + k = 52) :
    UnpackedFloat.ofNat Format.binary64 n =
      roundWithAccuracy Format.binary64 .positive (n * 2 ^ k) (-k) .exact := by
  have htarget : Format.binary64.targetExponent (totalExponent n 0) = -k := by
    rw [targetExponent_eq]
    omega
  have hcompare : compare (n : ℤ) 0 = .gt := compare_gt_iff_gt.2 (by exact_mod_cast hn)
  rw [UnpackedFloat.ofNat, UnpackedFloat.ofInt, UnpackedFloat.normalize,
    hcompare]
  simp only [UnpackedFloat.round, Int.toNat_natCast, htarget, decreaseExponent, Nat.shiftLeft_eq,
    zero_sub, neg_neg]

theorem unpacked_ofScientific {n : ℕ} (hn : n ≠ 0) :
    UnpackedFloat.ofScientific Format.binary64 n 0 =
      roundWithAccuracy Format.binary64 .positive (n * 2 ^ 53) (-53) .exact := by
  have hlow : ¬ (0 : ℤ) < -(2 ^ 11 + n.log2) := by omega
  unfold UnpackedFloat.ofScientific
  rw [dif_neg hn, if_neg (by norm_num), if_neg hlow, if_pos le_rfl]
  change roundWithAccuracy Format.binary64 .positive (n <<< 53 * 1) (-53) .exact = _
  rw [Nat.shiftLeft_eq, Nat.mul_one]

theorem unpack_one :
    (getElem Float.exactlyRepresentablePowersOfTen 0 (by decide)).toModel.unpack =
      .finite .positive (2 ^ 52) (-52) (Nat.two_pow_pos 52) := rfl

/-- What a natural number comes to as a double. -/
theorem stands_ofNat {n : ℕ} (hn : n ≤ 2 ^ 63) :
    Stands (Float.ofNat n).toModel.unpack (shorten n * 2 ^ 52 : ℕ) := by
  rcases Nat.lt_or_ge n (2 ^ 53) with hlt | hge
  · have hfast : Float.ofNat n = n.toUInt64.toFloat *
        getElem Float.exactlyRepresentablePowersOfTen 0 (by decide) := dif_pos ⟨hlt, by decide⟩
    have hsame : n.toUInt64.toNat = n := Nat.mod_eq_of_lt (by omega)
    have hfactor : Stands n.toUInt64.toFloat.toModel.unpack (shorten n * 2 ^ 52 : ℕ) := by
      refine Stands.unpack_pack (u := UnpackedFloat.ofNat Format.binary64 n.toUInt64.toNat) ?_
      rw [hsame]
      rcases Nat.eq_zero_or_pos n with rfl | hpos
      · exact .zero _
      · have hlog : n.log2 < 53 := (Nat.log2_lt hpos.ne').2 hlt
        obtain ⟨k, hk⟩ := Nat.exists_eq_add_of_le (Nat.le_of_lt_succ hlog)
        rw [unpacked_ofNat hpos hk.symm]
        exact stands_shifted hpos.ne' (by omega) hk.le
    rw [hfast]
    change Stands (Float.Model.pack (UnpackedFloat.mul Format.binary64 _ _)).unpack _
    rw [unpack_one]
    exact hfactor.mul_one.unpack_pack
  · have hslow : Float.ofNat n = .ofModel (.ofScientific n 0) := dif_neg (by omega)
    have hne : n ≠ 0 := by omega
    have hlog : n.log2 ≤ 63 := by
      by_contra hlt
      have hbig := (Nat.le_log2 hne).1 (Nat.lt_of_not_le hlt)
      omega
    have hlong : 52 ≤ n.log2 := (Nat.le_log2 hne).2 (by omega)
    rw [hslow]
    change Stands (Float.Model.pack (UnpackedFloat.ofScientific Format.binary64 n 0)).unpack _
    rw [unpacked_ofScientific hne]
    exact (stands_shifted (k := 53) hne hlog (by omega)).unpack_pack

/-- What an integer comes to as a double. -/
theorem stands_ofInt {n : ℤ} (hn : n.natAbs ≤ 2 ^ 63) :
    Stands (Float.ofInt n).toModel.unpack (shortened n * 2 ^ 52) := by
  cases n with
  | ofNat n =>
    have hstands := stands_ofNat (n := n) hn
    rw [Nat.cast_mul, ← shortened_natCast] at hstands
    exact_mod_cast hstands
  | negSucc n =>
    have hstands := (stands_ofNat (n := n + 1) hn).neg.unpack_pack
    rw [Nat.cast_mul, ← shortened_natCast, ← neg_mul, ← shortened_neg] at hstands
    exact_mod_cast hstands

/-- As doubles integers are compared as they are shortened. -/
theorem ofInt_lt_ofInt_iff {m n : ℤ} (hm : m.natAbs ≤ 2 ^ 63) (hn : n.natAbs ≤ 2 ^ 63) :
    Float.ofInt m < Float.ofInt n ↔ shortened m < shortened n := by
  have hlt := (stands_ofInt hm).lt_iff (stands_ofInt hn)
  rw [mul_lt_mul_iff_left₀ (by norm_num)] at hlt
  exact (decide_eq_true_iff (p := (Float.ofInt m).toModel < (Float.ofInt n).toModel)).trans hlt

end Binary
end Patchbay.Decimal
