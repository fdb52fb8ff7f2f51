import Patchbay.Proofs.CommandLine.Trimmed
import Patchbay.Proofs.Decimal.Digits
import Patchbay.Value
/-!
# Settings that are integers

A setting is taken for an integer if all of its text spells one: white space in front, maybe a sign,
and decimal digits up to the end, of a number with a place in 64 bits. Everything else is refused.
The text of an integer spells that integer, so that integers are read back as they were written.

## Main definitions

* `Numeral.Spells`: the texts that spell an integer.

## Main statements

* `Numeral.readAll_eq_ok_iff`: what is read spells what it is read as.
* `Numeral.read_write`: the text of an integer is read as that integer.
* `Settings.getInt_stored`: which settings are integers.
-/
namespace Patchbay
namespace Numeral

/-- A text that spells an integer, with white space in front and a sign or none. -/
inductive Spells : List Char → ℤ → Prop where
  | bare {space ds : List Char} (hspace : ∀ c ∈ space, isSpace c = true) (hne : ds ≠ [])
    (hds : ∀ c ∈ ds, c.isDigit = true) : Spells (space ++ ds) (Nat.ofDigitChars 10 ds 0)
  | plus {space ds : List Char} (hspace : ∀ c ∈ space, isSpace c = true) (hne : ds ≠ [])
    (hds : ∀ c ∈ ds, c.isDigit = true) : Spells (space ++ '+' :: ds) (Nat.ofDigitChars 10 ds 0)
  | minus {space ds : List Char} (hspace : ∀ c ∈ space, isSpace c = true) (hne : ds ≠ [])
    (hds : ∀ c ∈ ds, c.isDigit = true) : Spells (space ++ '-' :: ds) (-Nat.ofDigitChars 10 ds 0)

variable {s space ds : List Char} {n : Int64} {m : ℤ}

/-! ### Signs and digits -/

/-- White space is skipped up to the first character that is none. -/
theorem dropWhile_isSpace_append (hspace : ∀ c ∈ space, isSpace c = true) {c : Char}
    (hc : isSpace c = false) (t : List Char) :
    (space ++ c :: t).dropWhile isSpace = c :: t := by
  rw [List.dropWhile_append_of_pos hspace, List.dropWhile_cons_of_neg (by simp [hc])]

theorem isSpace_eq_false_of_isDigit {c : Char} (h : c.isDigit = true) : isSpace c = false := by
  rw [Bool.eq_false_iff]
  intro hspace
  cases h.symm.trans (isDigit_eq_false_of_isSpace hspace)

/-- Digits have no sign in front. -/
theorem sign_of_digits (hds : ∀ c ∈ ds, c.isDigit = true) : sign ds = (false, ds) := by
  unfold sign
  split
  · cases hds '-' List.mem_cons_self
  · cases hds '+' List.mem_cons_self
  · rfl

/-- A text has a sign in front, or there is none to split off. -/
theorem sign_cases (s : List Char) : (∃ t, s = '-' :: t ∧ sign s = (true, t)) ∨
    (∃ t, s = '+' :: t ∧ sign s = (false, t)) ∨ sign s = (false, s) := by
  unfold sign
  split
  · exact .inl ⟨_, rfl, rfl⟩
  · exact .inr (.inl ⟨_, rfl, rfl⟩)
  · exact .inr (.inr rfl)

/-- A text spells an integer if there are digits only behind its white space and its sign. -/
theorem spells_iff : Spells s m ↔ body s ≠ [] ∧ (∀ c ∈ body s, c.isDigit = true) ∧
    signed (sign (s.dropWhile isSpace)).1 (ofDigits (body s)) = m := by
  constructor
  · rintro (@⟨space, ds, hspace, hne, hds⟩ | ⟨hspace, hne, hds⟩ | ⟨hspace, hne, hds⟩)
    · have hdrop : (space ++ ds).dropWhile isSpace = ds := by
        obtain ⟨c, cs, rfl⟩ := List.exists_cons_of_ne_nil hne
        exact dropWhile_isSpace_append hspace
          (isSpace_eq_false_of_isDigit (hds c List.mem_cons_self)) cs
      rw [body, hdrop, sign_of_digits hds]
      exact ⟨hne, hds, rfl⟩
    · rw [body, dropWhile_isSpace_append hspace (by decide)]
      exact ⟨hne, hds, rfl⟩
    · rw [body, dropWhile_isSpace_append hspace (by decide)]
      exact ⟨hne, hds, rfl⟩
  · rintro ⟨hne, hds, rfl⟩
    rw [body] at hne hds
    have hspace : ∀ c ∈ s.takeWhile isSpace, isSpace c = true := fun c => List.mem_takeWhile_imp
    have hs : s.takeWhile isSpace ++ s.dropWhile isSpace = s := List.takeWhile_append_dropWhile
    rcases sign_cases (s.dropWhile isSpace) with ⟨t, ht, hsign⟩ | ⟨t, ht, hsign⟩ | hsign <;>
      rw [hsign] at hne hds
    · have hspells := Spells.minus hspace hne hds
      rw [← ht, hs] at hspells
      rwa [body, hsign]
    · have hspells := Spells.plus hspace hne hds
      rw [← ht, hs] at hspells
      rwa [body, hsign]
    · have hspells := Spells.bare hspace hne hds
      rw [hs] at hspells
      rwa [body, hsign]

/-! ### Reading -/

theorem fits_toInt (n : Int64) : fits n.toInt = true := by
  rw [fits, Bool.and_eq_true, decide_eq_true_iff, decide_eq_true_iff]
  exact ⟨n.minValue_le_toInt, n.toInt_le⟩

theorem toInt_ofInt_of_fits (h : fits m = true) : (Int64.ofInt m).toInt = m := by
  rw [fits, Bool.and_eq_true, decide_eq_true_iff, decide_eq_true_iff] at h
  exact Int64.toInt_ofInt_of_le h.1 (Int.lt_of_le_of_lt h.2 (by decide))

/-- A text that spells an integer is read with nothing left over, and no other text is. -/
theorem read_eq_ok_nil_iff : read s = .ok (n, []) ↔ Spells s n.toInt := by
  rw [spells_iff, read_eq]
  generalize body s = ds
  by_cases hds : ∀ c ∈ ds, c.isDigit = true
  · have htake : ds.takeWhile Char.isDigit = ds := List.takeWhile_eq_self_iff.2 hds
    have hdrop : ds.dropWhile Char.isDigit = [] := List.dropWhile_eq_nil_iff.2 hds
    rw [htake, hdrop]
    generalize signed (sign (s.dropWhile isSpace)).1 (ofDigits ds) = m
    by_cases hne : ds = []
    · subst hne
      exact iff_of_false nofun fun h => h.1 rfl
    · rw [if_neg (by simpa using hne)]
      by_cases hfits : fits m = true
      · simp only [if_pos hfits, Except.ok.injEq, Prod.mk.injEq, and_true]
        rw [← Int64.toInt_inj, toInt_ofInt_of_fits hfits]
        exact ⟨fun h => ⟨hne, hds, h⟩, fun h => h.2.2⟩
      · rw [if_neg hfits]
        exact iff_of_false nofun fun h => hfits (h.2.2 ▸ fits_toInt n)
  · -- Something is left over.
    refine iff_of_false (fun h => hds ?_) fun h => hds h.2.1
    split at h
    · cases h
    · simp only at h
      split at h
      · exact List.dropWhile_eq_nil_iff.1 (congrArg Prod.snd (Except.ok.inj h))
      · cases h

/-- A text is an integer as a whole if it spells one. -/
theorem readAll_eq_ok_iff : readAll s = .ok n ↔ Spells s n.toInt := by
  rw [← read_eq_ok_nil_iff, readAll]
  cases read s with
  | error e => simp
  | ok r =>
    obtain ⟨k, rest⟩ := r
    cases rest with
    | nil => simp
    | cons c rest => simp

/-- The text of an integer spells it. -/
theorem spells_write (m : ℤ) : Spells (write m) m := by
  have hvalue : Nat.ofDigitChars 10 (digits m.natAbs) 0 = m.natAbs := ofDigits_digits m.natAbs
  have hne := digits_ne_nil m.natAbs
  have hdigit : ∀ c ∈ digits m.natAbs, c.isDigit = true := fun c => isDigit_of_mem_digits
  rw [write]
  split
  · have hspells := @Spells.minus [] _ nofun hne hdigit
    have hm : -(m.natAbs : ℤ) = m := by omega
    rwa [hvalue, hm] at hspells
  · have hspells := @Spells.bare [] _ nofun hne hdigit
    have hm : (m.natAbs : ℤ) = m := by omega
    rwa [hvalue, hm] at hspells

end Numeral

namespace Settings
open Numeral (Spells)

section Stored
variable {s : Settings} {key value : String} (h : s.get? key = some value) (fallback : Int64)
include h

theorem getInt_eq_ok_iff (n : Int64) :
    s.getInt key fallback = .ok n ↔ Spells value.toList n.toInt := by
  rw [← Numeral.readAll_eq_ok_iff, getInt, h]
  cases hvalue : Numeral.readAll value.toList with
  | ok k => simp only [hvalue, Except.ok.injEq]
  | error e =>
    simp only [hvalue]
    exact iff_of_false nofun nofun

theorem getInt_eq_error (hnot : ∀ n : Int64, ¬ Spells value.toList n.toInt) :
    s.getInt key fallback = .error (.notInteger key value) := by
  rw [getInt, h]
  cases hvalue : Numeral.readAll value.toList with
  | ok k => exact absurd (Numeral.readAll_eq_ok_iff.1 hvalue) (hnot k)
  | error e => simp only [hvalue]

end Stored

/-- A setting is an integer exactly if its text spells one with a place in 64 bits, and every other
text is refused, whatever the fallback. The text that is shown for an integer is an integer as a
setting and as a value, namely the one that it is shown for. -/
theorem getInt_stored :
    (∀ (s : Settings) (key value : String) (fallback : Int64), s.get? key = some value →
      (∀ n, s.getInt key fallback = .ok n ↔ Spells value.toList n.toInt) ∧
      ((∀ n : Int64, ¬ Spells value.toList n.toInt) →
        s.getInt key fallback = .error (.notInteger key value))) ∧
    ∀ (s : Settings) (key : String) (fallback n : Int64),
      (s.set key (Value.int n).text).getInt key fallback = .ok n ∧
      (Value.string (Value.int n).text).asInt = .ok n := by
  refine ⟨fun s key value fallback h => ⟨getInt_eq_ok_iff h fallback, getInt_eq_error h fallback⟩,
    fun s key fallback n => ?_⟩
  have hspells : Spells (Value.int n).text.toList n.toInt := by
    rw [Value.text, Numeral.intText, String.toList_ofList]
    exact Numeral.spells_write n.toInt
  refine ⟨(getInt_eq_ok_iff (get?_set_self s key _) fallback n).2 hspells, ?_⟩
  rw [Value.asInt, Numeral.read_eq_ok_nil_iff.2 hspells]

/-- The least integer has a place in 64 bits. The number that it is the opposite of has none. -/
theorem getInt_stored_least :
    let s := (({} : Settings).set "low" "\t-9223372036854775808").set "high" "9223372036854775808"
    s.get? "low" = some "\t-9223372036854775808" ∧ s.get? "high" = some "9223372036854775808" ∧
      s.getInt "low" 0 = .ok Int64.minValue ∧
      s.getInt "high" 0 = .error (.notInteger "high" "9223372036854775808") := by
  intro s
  have hlow : s.get? "low" = some "\t-9223372036854775808" := rfl
  have hhigh : s.get? "high" = some "9223372036854775808" := rfl
  refine ⟨hlow, hhigh, ((getInt_stored.1 s _ _ 0 hlow).1 Int64.minValue).2 ?_,
    (getInt_stored.1 s _ _ 0 hhigh).2 fun n hn => ?_⟩
  · exact @Spells.minus ['\t'] "9223372036854775808".toList (List.forall_mem_singleton.2 rfl)
      (by decide) (List.all_eq_true.1 rfl)
  · have hread : Numeral.readAll "9223372036854775808".toList = .error .outOfRange := by decide
    cases hread.symm.trans (Numeral.readAll_eq_ok_iff.2 hn)

end Settings
end Patchbay
