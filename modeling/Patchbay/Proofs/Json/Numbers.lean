import Patchbay.Json.Parser
import Patchbay.Json.Printer
import Patchbay.Proofs.Decimal.Packed
import Patchbay.Proofs.Decimal.Reading
/-!
# Numbers in JSON texts

Integers and finite doubles are read as they were written. A number in a text has digits, maybe a
point with digits after it, and maybe an exponent; each of the ways to write a double has such parts,
and the number that they stand for rounds to that double.

## Main definitions

* `Json.Stops`: what follows a number does not belong to it.
* `Json.Parts`: the parts of a number in a text.

## Main statements

* `Json.Parts.number_text`: a number is read by its parts.
* `Json.number_write`: an integer is read as it was written.
* `Json.number_shortest`: a finite double is read as it was written.
-/
namespace Patchbay.Json
open Numeral (ofDigits Leads)
open Decimal (exponentText withSign)

/-- What follows a number does not belong to it. -/
def Stops (rest : List Char) : Prop :=
  ∀ c ∈ rest.head?, c.isDigit = false ∧ c ≠ '.' ∧ c ≠ 'e' ∧ c ≠ 'E'

/-- The parts of a number in a text: digits, digits after the point, and an exponent. -/
structure Parts where
  whole : List Char
  part : Option (List Char) := none
  exponent : Option ℤ := none

namespace Parts

/-- The text of an exponent after its mark. -/
def exponentPart (x : Option ℤ) : List Char := x.elim [] fun x => 'e' :: exponentText x

/-- The text of a number without its sign. -/
def text (p : Parts) : List Char :=
  p.whole ++ (p.part.elim [] ('.' :: ·) ++ exponentPart p.exponent)

/-- The parts are those of a number: no needless zeros in front, and digits after a point. -/
structure Valid (p : Parts) : Prop where
  whole : p.whole = ['0'] ∨ Leads p.whole
  part : ∀ ds ∈ p.part, ds ≠ [] ∧ ∀ c ∈ ds, c.isDigit = true

end Parts

namespace Parser
variable {ds rest : List Char}

/-- Digits are taken up to what is not a digit. -/
theorem digits_append (hds : ds ≠ []) (hdigit : ∀ c ∈ ds, c.isDigit = true)
    (hrest : ∀ c ∈ rest.head?, c.isDigit = false) : digits (ds ++ rest) = .ok (ds, rest) := by
  have hstop : rest.takeWhile Char.isDigit = [] ∧ rest.dropWhile Char.isDigit = rest := by
    cases rest with
    | nil => exact ⟨rfl, rfl⟩
    | cons c cs =>
      have hc : ¬ c.isDigit = true := by simp [hrest c rfl]
      exact ⟨List.takeWhile_cons_of_neg hc, List.dropWhile_cons_of_neg hc⟩
  simp only [digits, List.takeWhile_append_of_pos hdigit, List.dropWhile_append_of_pos hdigit,
    hstop.1, hstop.2, List.append_nil]
  rw [if_neg (by simpa using hds)]

theorem whole_append (h : ds = ['0'] ∨ Leads ds) (hrest : ∀ c ∈ rest.head?, c.isDigit = false) :
    whole (ds ++ rest) = .ok (ds, rest) := by
  rcases h with rfl | h
  · rfl
  · have hdigits := digits_append h.ne_nil h.digits hrest
    obtain ⟨c, cs, rfl, hc⟩ := h.first
    rw [List.cons_append] at hdigits ⊢
    rw [whole]
    · exact hdigits
    · intro s hs
      exact hc (List.cons.inj hs).1

/-- A point with digits after it is taken, and nothing if there is no point. -/
theorem fraction_append {part : Option (List Char)}
    (h : ∀ ds ∈ part, ds ≠ [] ∧ ∀ c ∈ ds, c.isDigit = true)
    (hdigit : ∀ c ∈ rest.head?, c.isDigit = false) (hpoint : ∀ c ∈ rest.head?, c ≠ '.') :
    fraction (part.elim [] ('.' :: ·) ++ rest) = .ok (part, rest) := by
  cases part with
  | none =>
    cases rest with
    | nil => rfl
    | cons c cs =>
      rw [Option.elim_none, List.nil_append, fraction]
      intro s hs
      exact hpoint c rfl (List.cons.inj hs).1
  | some ds =>
    obtain ⟨hne, hds⟩ := h ds rfl
    simp only [Option.elim_some, List.cons_append, fraction, digits_append hne hds hdigit]
    rfl

/-- An exponent is taken as it was written, and nothing if there is none. -/
theorem exponent_append (x : Option ℤ) (hrest : Stops rest) :
    exponent (Parts.exponentPart x ++ rest) = .ok (x, rest) := by
  cases x with
  | none =>
    cases rest with
    | nil => rfl
    | cons c cs =>
      obtain ⟨-, -, he, hE⟩ := hrest c rfl
      rw [Parts.exponentPart, Option.elim_none, List.nil_append, exponent,
        if_neg (not_or.2 ⟨he, hE⟩)]
  | some x =>
    let ds := Numeral.digits x.natAbs
    let padded := if ds.length < 2 then '0' :: ds else ds
    have hpadded : padded ≠ [] ∧ (∀ c ∈ padded, c.isDigit = true) ∧ ofDigits padded = x.natAbs := by
      have hzero := Numeral.ofDigits_zeros_append 1 ds
      have hds : ∀ c ∈ ds, c.isDigit = true := fun c => Numeral.isDigit_of_mem_digits
      simp only [padded]
      split
      · exact ⟨List.cons_ne_nil _ _, List.forall_mem_cons.2 ⟨rfl, hds⟩,
          hzero.trans (Numeral.ofDigits_digits _)⟩
      · exact ⟨Numeral.digits_ne_nil _, hds, Numeral.ofDigits_digits _⟩
    obtain ⟨hne, hdigit, hvalue⟩ := hpadded
    have hsign : Numeral.sign ((if x < 0 then '-' else '+') :: (padded ++ rest)) =
        (decide (x < 0), padded ++ rest) := by
      split <;> simp [Numeral.sign, *]
    have hsigned : Numeral.signed (decide (x < 0)) (ofDigits padded) = x := by
      rw [hvalue, Numeral.signed]
      split
      · next h =>
        have h := of_decide_eq_true h
        omega
      · next h =>
        have h := mt decide_eq_true h
        omega
    change exponent ('e' :: ((if x < 0 then '-' else '+') :: (padded ++ rest))) = _
    rw [exponent, if_pos (Or.inl rfl), hsign]
    dsimp only
    rw [digits_append hne hdigit fun c hc => (hrest c hc).1]
    exact congrArg (fun n => Except.ok (some n, rest)) hsigned

/-- What follows the digits before the point is no digit. -/
theorem head?_tail (part : Option (List Char)) (x : Option ℤ) (hrest : Stops rest) :
    ∀ c ∈ (part.elim [] ('.' :: ·) ++ (Parts.exponentPart x ++ rest)).head?,
      c.isDigit = false := by
  intro c hc
  cases part with
  | some ds =>
    cases hc
    rfl
  | none =>
    cases x with
    | some x =>
      cases hc
      rfl
    | none => exact (hrest c hc).1

/-- What follows the point is no point. -/
theorem head?_exponentPart (x : Option ℤ) (hrest : Stops rest) :
    ∀ c ∈ (Parts.exponentPart x ++ rest).head?, c.isDigit = false ∧ c ≠ '.' := by
  intro c hc
  cases x with
  | some x =>
    cases hc
    exact ⟨rfl, by decide⟩
  | none => exact ⟨(hrest c hc).1, (hrest c hc).2.1⟩

/-- A number after its sign. -/
def unsigned (negative : Bool) (s : List Char) : Except ParseError (Json × List Char) := do
  let (ds, s) ← whole s
  let (part, s) ← fraction s
  let (x, s) ← exponent s
  .ok (← makeNumber negative ds part x, s)

theorem number_minus (s : List Char) : number ('-' :: s) = unsigned true s := rfl

theorem number_of_ne {s : List Char} (h : ∀ t, s ≠ '-' :: t) : number s = unsigned false s := by
  unfold number
  split
  next hsplit =>
  split at hsplit
  · exact absurd rfl (h _)
  · cases hsplit
    rfl

end Parser

namespace Parts
variable {p : Parts} {rest : List Char}

/-- A number begins with a digit. -/
theorem Valid.exists_first (hp : p.Valid) : ∃ c cs, p.whole = c :: cs ∧ c.isDigit = true := by
  rcases hp.whole with hw | hw
  · exact ⟨'0', [], hw, rfl⟩
  · obtain ⟨c, cs, hcs, -⟩ := hw.first
    exact ⟨c, cs, hcs, hw.digits c (hcs ▸ List.mem_cons_self)⟩

/-- A number does not begin with a minus of its own. -/
theorem text_ne_minus (hp : p.Valid) (rest s : List Char) : p.text ++ rest ≠ '-' :: s := by
  intro h
  obtain ⟨c, cs, hcs, hc⟩ := hp.exists_first
  rw [text, hcs, List.cons_append] at h
  rw [(List.cons.inj h).1] at hc
  cases hc

/-- A number is read by its parts. -/
theorem number_text (hp : p.Valid) (hrest : Stops rest) (negative : Bool) :
    Parser.number (withSign negative p.text ++ rest) =
      (Parser.makeNumber negative p.whole p.part p.exponent).map fun j => (j, rest) := by
  have hunsigned : p.text ++ rest =
      p.whole ++ (p.part.elim [] ('.' :: ·) ++ (exponentPart p.exponent ++ rest)) := by
    simp only [text, List.append_assoc]
  have hexponent := Parser.head?_exponentPart p.exponent hrest
  have hwhole := Parser.whole_append hp.whole (Parser.head?_tail p.part p.exponent hrest)
  have hfraction := Parser.fraction_append hp.part (fun c hc => (hexponent c hc).1)
    fun c hc => (hexponent c hc).2
  have hsplit : Parser.number (withSign negative p.text ++ rest) =
      Parser.unsigned negative (p.text ++ rest) := by
    cases negative with
    | true => exact Parser.number_minus _
    | false => exact Parser.number_of_ne (text_ne_minus hp rest)
  rw [hsplit, hunsigned]
  simp only [Parser.unsigned, hwhole, hfraction, Parser.exponent_append p.exponent hrest, bind,
    Except.bind]
  cases Parser.makeNumber negative p.whole p.part p.exponent <;> rfl

/-- The number that the parts stand for, without its sign. -/
def value (p : Parts) : ℚ :=
  ofDigits (p.whole ++ p.part.getD []) * 10 ^ (p.exponent.getD 0 - (p.part.getD []).length)

/-- The parts are not those of an integer. -/
def Broken (p : Parts) : Prop := p.part.isSome = true ∨ p.exponent.isSome = true

/-- A number that is no integer is made by rounding to a double. -/
theorem makeNumber_eq (hp : p.Broken) {negative : Bool} {x : Float}
    (h : (Decimal.nearestDecimal negative (ofDigits (p.whole ++ p.part.getD []))
        (p.exponent.getD 0 - (p.part.getD []).length)).value = x ∧
      (Decimal.nearestDecimal negative (ofDigits (p.whole ++ p.part.getD []))
        (p.exponent.getD 0 - (p.part.getD []).length)).overflow = false) :
    Parser.makeNumber negative p.whole p.part p.exponent = .ok (.double (.of x)) := by
  have hinteger : (p.part.isNone && p.exponent.isNone &&
      Parser.hasPlace (Numeral.signed negative (ofDigits p.whole))) = false := by
    rcases hp with hp | hp
    · rw [Option.isNone_eq_false_iff.2 hp]
      rfl
    · rw [Option.isNone_eq_false_iff.2 hp, Bool.and_false, Bool.false_and]
  obtain ⟨hvalue, hoverflow⟩ := h
  simp only [Parser.makeNumber, hinteger, hoverflow, hvalue, Bool.false_eq_true, if_false]

end Parts

/-! ### The ways to write a double -/

section Layout
variable {ds : List Char}

/-- Zeros behind the point in front of the digits. -/
theorem exists_parts_of_neg (h : Leads ds) {x : ℤ} (hx : x < 0) :
    ∃ p : Parts, p.Valid ∧ p.Broken ∧ Decimal.positional true ds x = p.text ∧
      p.value = ofDigits ds * 10 ^ (x + 1 - ds.length) := by
  refine ⟨⟨['0'], some (List.replicate (-x - 1).toNat '0' ++ ds), none⟩, ⟨.inl rfl, ?_⟩, .inl rfl,
    ?_, ?_⟩
  · rintro _ ⟨rfl⟩
    refine ⟨List.append_ne_nil_of_right_ne_nil _ h.ne_nil, fun c hc => ?_⟩
    rcases List.mem_append.1 hc with hc | hc
    · rw [List.eq_of_mem_replicate hc]
      rfl
    · exact h.digits c hc
  · rw [Decimal.positional, if_pos hx]
    simp [Parts.text, Parts.exponentPart]
  · have hvalue : ofDigits (['0'] ++ (List.replicate (-x - 1).toNat '0' ++ ds)) = ofDigits ds := by
      rw [← List.append_assoc, ← List.replicate_one, ← List.replicate_add,
        Numeral.ofDigits_zeros_append]
    rw [Parts.value, Option.getD_some, Option.getD_none, hvalue, List.length_append,
      List.length_replicate]
    congr 2
    omega

/-- Digits on both sides of the point. -/
theorem exists_parts_of_lt (h : Leads ds) {x : ℤ} (hx : 0 ≤ x) (hlt : x + 1 < ds.length) :
    ∃ p : Parts, p.Valid ∧ p.Broken ∧ Decimal.positional true ds x = p.text ∧
      p.value = ofDigits ds * 10 ^ (x + 1 - ds.length) := by
  have hdrop : ds.drop (x.toNat + 1) ≠ [] := by
    rw [ne_eq, List.drop_eq_nil_iff]
    omega
  refine ⟨⟨ds.take (x.toNat + 1), some (ds.drop (x.toNat + 1)), none⟩, ⟨.inr ⟨?_, fun c hc => ?_⟩, ?_⟩,
    .inl rfl, ?_, ?_⟩
  · obtain ⟨c, cs, rfl, hc⟩ := h.first
    exact ⟨c, cs.take x.toNat, rfl, hc⟩
  · exact h.digits c (List.mem_of_mem_take hc)
  · rintro _ ⟨rfl⟩
    exact ⟨hdrop, fun c hc => h.digits c (List.mem_of_mem_drop hc)⟩
  · have hzeros : x.toNat + 1 - ds.length = 0 := by omega
    rw [Decimal.positional, if_neg (by omega)]
    simp only [hzeros, List.replicate_zero, List.append_nil]
    simp [Parts.text, Parts.exponentPart]
  · rw [Parts.value, Option.getD_some, Option.getD_none, List.take_append_drop, List.length_drop]
    congr 2
    omega

/-- Zeros up to the point. -/
theorem exists_parts_of_ge (h : Leads ds) {x : ℤ} (hx : 0 ≤ x) (hge : ds.length ≤ x + 1) :
    ∃ p : Parts, p.Valid ∧ p.Broken ∧ Decimal.positional true ds x = p.text ∧
      p.value = ofDigits ds * 10 ^ (x + 1 - ds.length) := by
  let n := x.toNat + 1 - ds.length
  refine ⟨⟨ds ++ List.replicate n '0', some ['0'], none⟩, ⟨.inr ⟨?_, fun c hc => ?_⟩, ?_⟩,
    .inl rfl, ?_, ?_⟩
  · obtain ⟨c, cs, rfl, hc⟩ := h.first
    exact ⟨c, cs ++ List.replicate n '0', rfl, hc⟩
  · rcases List.mem_append.1 hc with hc | hc
    · exact h.digits c hc
    · rw [List.eq_of_mem_replicate hc]
      rfl
  · rintro _ ⟨rfl⟩
    exact ⟨List.cons_ne_nil _ _, fun c hc => List.mem_singleton.1 hc ▸ rfl⟩
  · have hdrop : ds.drop (x.toNat + 1) = [] := List.drop_eq_nil_iff.2 (by omega)
    have htake : ds.take (x.toNat + 1) = ds := List.take_of_length_le (by omega)
    rw [Decimal.positional, if_neg (by omega)]
    simp only [hdrop, htake]
    simp [Parts.text, Parts.exponentPart, n]
  · have hvalue : ofDigits (ds ++ List.replicate n '0' ++ ['0']) = 10 ^ (n + 1) * ofDigits ds := by
      rw [List.append_assoc, ← List.replicate_one, ← List.replicate_add,
        Numeral.ofDigits_append_zeros]
    rw [Parts.value, Option.getD_some, Option.getD_none, hvalue]
    push_cast
    rw [mul_comm ((10 : ℚ) ^ (n + 1)), mul_assoc, ← zpow_natCast, ← zpow_add₀ (by norm_num)]
    congr 2
    have hn : (n : ℤ) = x + 1 - ds.length := by
      simp only [n]
      omega
    rw [List.length_singleton]
    push_cast
    omega

/-- One digit before the point, and an exponent. -/
theorem exists_parts_scientific (h : Leads ds) (x : ℤ) :
    ∃ p : Parts, p.Valid ∧ p.Broken ∧ Decimal.scientific ds x = p.text ∧
      p.value = ofDigits ds * 10 ^ (x + 1 - ds.length) := by
  obtain ⟨c, cs, rfl, hc⟩ := h.first
  have hone : Leads [c] := ⟨⟨c, [], rfl, hc⟩, fun d hd =>
    h.digits d (List.mem_singleton.1 hd ▸ List.mem_cons_self)⟩
  cases cs with
  | nil =>
    refine ⟨⟨[c], none, some x⟩, ⟨.inr hone, nofun⟩, .inr rfl, rfl, ?_⟩
    rw [Parts.value]
    congr 2
    simp
  | cons d cs =>
    refine ⟨⟨[c], some (d :: cs), some x⟩, ⟨.inr hone, ?_⟩, .inr rfl, ?_, ?_⟩
    · rintro _ ⟨rfl⟩
      exact ⟨List.cons_ne_nil _ _, fun b hb => h.digits b (List.mem_cons_of_mem c hb)⟩
    · simp [Decimal.scientific, Parts.text, Parts.exponentPart]
    · rw [Parts.value]
      congr 2
      simp only [Option.getD_some, List.length_cons]
      omega

/-- Every way to write a double has the parts of a number. -/
theorem exists_parts (h : Leads ds) (x : ℤ) :
    ∃ p : Parts, p.Valid ∧ p.Broken ∧ doubleStyle.layout ds x = p.text ∧
      p.value = ofDigits ds * 10 ^ (x + 1 - ds.length) := by
  rw [Decimal.Style.layout]
  split
  · rcases lt_or_ge x 0 with hx | hx
    · exact exists_parts_of_neg h hx
    · rcases lt_or_ge (x + 1) (ds.length : ℤ) with hlt | hge
      · exact exists_parts_of_lt h hx hlt
      · exact exists_parts_of_ge h hx hge
  · exact exists_parts_scientific h x

end Layout

section Numbers
variable {rest : List Char}

/-- An integer is read as it was written. -/
theorem number_write {n : ℤ} (hn : Parser.hasPlace n = true) (hrest : Stops rest) :
    Parser.number (Numeral.write n ++ rest) = .ok (.int n, rest) := by
  have hp : (Parts.mk (Numeral.digits n.natAbs) none none).Valid := by
    refine ⟨?_, nofun⟩
    rcases Nat.eq_zero_or_pos n.natAbs with h | h
    · exact .inl (by rw [h]; rfl)
    · exact .inr (Numeral.leads_digits h)
  have htext : Numeral.write n =
      withSign (n < 0) (Parts.mk (Numeral.digits n.natAbs) none none).text := by
    simp only [Numeral.write, withSign, Parts.text, Parts.exponentPart, Option.elim_none,
      List.append_nil, decide_eq_true_eq]
  have hsigned : Numeral.signed (n < 0) (ofDigits (Numeral.digits n.natAbs)) = n := by
    rw [Numeral.ofDigits_digits, Numeral.signed]
    by_cases h : n < 0
    · rw [if_pos (decide_eq_true h)]
      omega
    · rw [if_neg (mt of_decide_eq_true h)]
      omega
  rw [htext, Parts.number_text hp hrest, Parser.makeNumber]
  simp only [hsigned, hn, Option.isNone_none, Bool.and_self, if_true]
  rfl

/-- A finite double is read as it was written. -/
theorem number_shortest {m : ℕ} {e : ℤ} (hf : Decimal.Binary.Fits m e) (hrest : Stops rest)
    (negative : Bool) : Parser.number (Decimal.shortest doubleStyle negative m e ++ rest) =
      .ok (.double (.of (Decimal.Binary.pack negative m e)), rest) := by
  rcases Nat.eq_zero_or_pos m with rfl | hm
  · obtain rfl : e = -1074 := hf.normal.resolve_right (by norm_num)
    have hp : (Parts.mk ['0'] (some ['0']) none).Valid := by
      refine ⟨.inl rfl, ?_⟩
      rintro _ ⟨rfl⟩
      exact ⟨List.cons_ne_nil _ _, fun c hc => List.mem_singleton.1 hc ▸ rfl⟩
    have htext : Decimal.shortest doubleStyle negative 0 (-1074) =
        withSign negative (Parts.mk ['0'] (some ['0']) none).text := rfl
    have hmade : Parser.makeNumber negative ['0'] (some ['0']) none =
        .ok (.double (.of (Decimal.Binary.pack negative 0 (-1074)))) :=
      Parts.makeNumber_eq (p := ⟨['0'], some ['0'], none⟩) (.inl rfl) ⟨rfl, rfl⟩
    rw [htext, Parts.number_text hp hrest, hmade]
    rfl
  · obtain ⟨ds, x, hshortest, hleads, hnear⟩ := Decimal.shortestDigits_spec hf hm
    obtain ⟨p, hp, hbroken, hlayout, hvalue⟩ := exists_parts hleads x
    have htext : Decimal.shortest doubleStyle negative m e = withSign negative p.text := by
      simp only [Decimal.shortest, if_neg hm.ne', hshortest, hlayout]
    rw [← hvalue] at hnear
    rw [htext, Parts.number_text hp hrest, Parts.makeNumber_eq hbroken
      (Decimal.nearestDecimal_eq hf hm hnear negative)]
    rfl

end Numbers
end Patchbay.Json
