import Mathlib
import Patchbay.Proofs.Decimal.Nearest
/-!
# Doubles taken apart and put together

A finite double that is taken apart is a sign, an integer part and an exponent, from which it is put
together again.

## Main statements

* `Binary.fits_of_decode`: the parts of a finite double are those of a double.
* `Binary.pack_of_decode`: a finite double is put together from its parts.
-/
namespace Patchbay.Decimal.Binary
variable {x : Float} {negative : Bool} {m : ℕ} {e : ℤ}

/-- The bits of a double: a sign, eleven bits for the exponent and the other 52. -/
theorem exists_bits (x : Float) : ∃ s k f : ℕ, s < 2 ∧ k < 2 ^ 11 ∧ f < 2 ^ 52 ∧
    x.toBits.toNat = s * 2 ^ 63 + k * 2 ^ 52 + f := by
  have hlt : x.toBits.toNat < 2 ^ 64 := x.toBits.toNat_lt
  refine ⟨x.toBits.toNat / 2 ^ 63, x.toBits.toNat / 2 ^ 52 % 2 ^ 11, x.toBits.toNat % 2 ^ 52,
    by omega, Nat.mod_lt _ (by norm_num), Nat.mod_lt _ (by norm_num), ?_⟩
  generalize x.toBits.toNat = b at *
  have hhigh : b / 2 ^ 52 / 2 ^ 11 = b / 2 ^ 63 := Nat.div_div_eq_div_mul b (2 ^ 52) (2 ^ 11)
  have h₁ := Nat.div_add_mod b (2 ^ 52)
  have h₂ := Nat.div_add_mod (b / 2 ^ 52) (2 ^ 11)
  rw [hhigh] at h₂
  omega

/-- What is known of a finite double from its bits. -/
theorem decode_eq {s k f : ℕ} (hs : s < 2) (hk : k < 2 ^ 11) (hf : f < 2 ^ 52)
    (hbits : x.toBits.toNat = s * 2 ^ 63 + k * 2 ^ 52 + f) : decode x =
      if k = 2047 then if f = 0 then .infinite (s = 1) else .nan
      else if k = 0 then .finite (s = 1) f (-1074)
      else .finite (s = 1) (f + 2 ^ 52) ((k : ℤ) - 1075) := by
  have hfraction : x.toBits.toNat % Nat.pow 2 52 = f := by
    rw [show Nat.pow 2 52 = 2 ^ 52 from rfl]
    omega
  have hdiv : x.toBits.toNat / 2 ^ 52 = s * 2 ^ 11 + k := by omega
  have hexponent : x.toBits.toNat / Nat.pow 2 52 % Nat.pow 2 11 = k := by
    rw [show Nat.pow 2 11 = 2 ^ 11 from rfl, show Nat.pow 2 52 = 2 ^ 52 from rfl, hdiv]
    omega
  have hsign : (decide (Nat.pow 2 63 ≤ x.toBits.toNat)) = decide (s = 1) := by
    rw [show Nat.pow 2 63 = 2 ^ 63 from rfl]
    exact decide_eq_decide.2 (by omega)
  rw [decode, hfraction, hexponent, hsign]
  rfl

/-- The parts of a finite double are those of a double. -/
theorem fits_of_decode (h : decode x = .finite negative m e) : Fits m e := by
  obtain ⟨s, k, f, hs, hk, hf, hbits⟩ := exists_bits x
  rw [decode_eq hs hk hf hbits] at h
  split at h
  · split at h <;> cases h
  · split at h
    · cases h
      exact ⟨by omega, le_refl _, by decide, .inl rfl⟩
    · cases h
      exact ⟨by omega, by omega, by omega, .inr (by omega)⟩

/-- A finite double is put together from its parts. -/
theorem pack_of_decode (h : decode x = .finite negative m e) : pack negative m e = x := by
  obtain ⟨s, k, f, hs, hk, hf, hbits⟩ := exists_bits x
  have hsame (n : ℕ) (hn : n = x.toBits.toNat) : Float.ofBits (UInt64.ofNat n) = x := by
    rw [hn, UInt64.ofNat_toNat, Float.ofBits_toBits]
  have hunit : Nat.pow 2 52 = 2 ^ 52 := rfl
  have hsign : (if s = 1 then Nat.pow 2 63 else 0) = s * 2 ^ 63 := by
    rw [show Nat.pow 2 63 = 2 ^ 63 from rfl]
    split <;> omega
  rw [decode_eq hs hk hf hbits] at h
  split at h
  · split at h <;> cases h
  · split at h
    · next hk₀ =>
      cases h
      simp only [pack, decide_eq_true_eq, hsign, hunit, if_pos hf]
      exact hsame _ (by omega)
    · next hk₀ =>
      cases h
      have hk' : ((k : ℤ) - 1075 + 1075).toNat = k := by omega
      have hge : ¬ f + 2 ^ 52 < 2 ^ 52 := by omega
      simp only [pack, decide_eq_true_eq, hsign, hunit, if_neg hge, hk']
      exact hsame _ (by omega)

end Patchbay.Decimal.Binary
