import Patchbay.Proofs.Settings.Lines
/-!
# Integers in trimmed text

A setting is trimmed before it is read, and it has to be an integer as a whole. White space in front
of an integer is skipped by the reader anyway, so that trimming only matters at the end: there it
takes away what would otherwise stand behind the digits.

## Main statements

* `Numeral.read_append`: white space at the end of a text stays behind the integer.
* `Numeral.readAll_trim_eq_ok_iff`: which texts are an integer when they are trimmed.
* `Settings.get?_parse_of_line`: a line of the form `key = value` sets that key only.
-/
namespace Patchbay
variable {s t w rest key value : List Char} {n : Int64}

/-! ### White space -/

namespace Settings

theorem isSpace_of_isBlank {c : Char} (h : isBlank c = true) : Numeral.isSpace c = true := by
  rcases (by simpa [isBlank] using h : c = ' ' ∨ c = '\t') with rfl | rfl <;> decide

theorem isSpace_of_isTail {c : Char} (h : isTail c = true) : Numeral.isSpace c = true := by
  rcases (by simpa [isTail, or_assoc] using h : isBlank c = true ∨ c = '\r' ∨ c = '\n')
    with h | rfl | rfl
  · exact isSpace_of_isBlank h
  · decide
  · decide

end Settings

namespace Numeral

theorem isDigit_eq_false_of_isSpace {c : Char} (h : isSpace c = true) : c.isDigit = false := by
  have hlow : c.toNat ≤ 32 := by
    rcases (by simpa [isSpace] using h : c = ' ' ∨ '\t' ≤ c ∧ c ≤ '\r') with rfl | ⟨-, hle⟩
    · decide
    · exact (show c.toNat ≤ 13 from hle).trans (by decide)
  rw [Bool.eq_false_iff]
  intro hdigit
  have hhigh : 48 ≤ c.toNat := by
    simp only [Char.isDigit, Bool.and_eq_true, decide_eq_true_eq] at hdigit
    exact hdigit.1
  omega

/-! ### Reading before white space -/

/-- The text that an integer is read from, without the white space and the sign in front of it. -/
def body (s : List Char) : List Char := (sign (s.dropWhile isSpace)).2

/-- An integer is read from the digits at the front of the body of a text. -/
theorem read_eq (s : List Char) : read s =
    if ((body s).takeWhile Char.isDigit).isEmpty then .error .malformed
    else
      let n := signed (sign (s.dropWhile isSpace)).1 (ofDigits ((body s).takeWhile Char.isDigit))
      if fits n then .ok (Int64.ofInt n, (body s).dropWhile Char.isDigit)
      else .error .outOfRange := rfl

theorem sign_append (ht : t ≠ []) (w : List Char) :
    sign (t ++ w) = ((sign t).1, (sign t).2 ++ w) := by
  cases t with
  | nil => exact absurd rfl ht
  | cons c t =>
    rw [List.cons_append]
    unfold sign
    split <;> simp_all

theorem sign_suffix (s : List Char) : (sign s).2 <:+ s := by
  unfold sign
  split
  · exact List.suffix_cons _ _
  · exact List.suffix_cons _ _
  · exact List.suffix_refl _

/-- Digits end where white space begins. -/
theorem takeWhile_isDigit_append (t : List Char) (hw : ∀ c ∈ w, isSpace c = true) :
    (t ++ w).takeWhile Char.isDigit = t.takeWhile Char.isDigit ∧
      (t ++ w).dropWhile Char.isDigit = t.dropWhile Char.isDigit ++ w := by
  induction t with
  | nil =>
    cases w with
    | nil => exact ⟨rfl, rfl⟩
    | cons c w =>
      have hc := isDigit_eq_false_of_isSpace (hw c List.mem_cons_self)
      simp [hc]
  | cons c t ih =>
    cases hc : c.isDigit with
    | true => simp [hc, ih]
    | false => simp [hc]

/-- White space at the end of a text stays behind the integer at its front. -/
theorem read_append (t : List Char) (hw : ∀ c ∈ w, isSpace c = true) :
    read (t ++ w) = (read t).map fun r => (r.1, r.2 ++ w) := by
  have hdrop : w.dropWhile isSpace = [] := List.dropWhile_eq_nil_iff.2 hw
  by_cases ht : t.dropWhile isSpace = []
  · -- There is white space only.
    have hall : (t ++ w).dropWhile isSpace = [] := by
      rw [List.dropWhile_append, ht]
      exact hdrop
    simp only [read_eq, body, ht, hall]
    rfl
  · have hfront : (t ++ w).dropWhile isSpace = t.dropWhile isSpace ++ w := by
      rw [List.dropWhile_append, if_neg (by simpa using ht)]
    have hbody : body (t ++ w) = body t ++ w := by
      rw [body, body, hfront, sign_append ht]
    have hsign : (sign ((t ++ w).dropWhile isSpace)).1 = (sign (t.dropWhile isSpace)).1 := by
      rw [hfront, sign_append ht]
    obtain ⟨htake, hrest⟩ := takeWhile_isDigit_append (body t) hw
    simp only [read_eq, hbody, hsign, htake, hrest]
    split
    · rfl
    · split <;> rfl

/-- Blanks in front of an integer are skipped. -/
theorem read_dropWhile_isBlank (s : List Char) : read (s.dropWhile Settings.isBlank) = read s := by
  have hskip : (s.dropWhile Settings.isBlank).dropWhile isSpace = s.dropWhile isSpace := by
    induction s with
    | nil => rfl
    | cons c s ih =>
      rw [List.dropWhile_cons]
      split
      · next hc => rw [ih, List.dropWhile_cons, if_pos (Settings.isSpace_of_isBlank hc)]
      · rfl
  rw [read_eq, read_eq, body, body, hskip]

/-- What follows an integer stands at the end of the text. -/
theorem suffix_of_read (h : read s = .ok (n, rest)) : rest <:+ s := by
  rw [read_eq] at h
  split at h
  · cases h
  · simp only at h
    split at h
    · cases h
      exact (List.dropWhile_suffix _).trans ((sign_suffix _).trans (List.dropWhile_suffix _))
    · cases h

/-- A text is an integer when it is trimmed, if there is an integer at its front, and nothing but
blanks and line breaks behind. -/
theorem readAll_trim_eq_ok_iff : readAll (Settings.trim s) = .ok n ↔
    ∃ rest, read s = .ok (n, rest) ∧ ∀ c ∈ rest, Settings.isTail c = true := by
  -- The text is cut in two where its tail begins.
  obtain ⟨t, ht⟩ : ∃ t, s.rdropWhile Settings.isTail = t := ⟨_, rfl⟩
  obtain ⟨w, hw⟩ : ∃ w, s.rtakeWhile Settings.isTail = w := ⟨_, rfl⟩
  have hs : t ++ w = s := by rw [← ht, ← hw, List.rdropWhile_append_rtakeWhile]
  have htail : ∀ c ∈ w, Settings.isTail c = true := fun c hc =>
    List.mem_rtakeWhile_imp (hw ▸ hc)
  have hread : read s = (read t).map fun r => (r.1, r.2 ++ w) :=
    hs ▸ read_append t fun c hc => Settings.isSpace_of_isTail (htail c hc)
  have htrim : read (Settings.trim s) = read t := by
    rw [Settings.trim_eq, read_dropWhile_isBlank, ht]
  rw [readAll, htrim, hread]
  cases hr : read t with
  | error e => simp [Except.map]
  | ok r =>
    obtain ⟨m, rest⟩ := r
    cases rest with
    | nil => simpa [Except.map] using fun _ => htail
    | cons c rest =>
      -- What stands last in the front part does not belong to the tail.
      have hlast : ∃ d ∈ c :: rest, Settings.isTail d = false := by
        obtain ⟨front, hfront⟩ := suffix_of_read hr
        have hne : s.rdropWhile Settings.isTail ≠ [] := by
          rw [ht, ← hfront]
          simp
        refine ⟨(c :: rest).getLast (by simp), List.getLast_mem _, ?_⟩
        have hnot := List.rdropWhile_last_not Settings.isTail s hne
        simp only [ht, ← hfront] at hnot
        simpa using hnot
      obtain ⟨d, hd, hnot⟩ := hlast
      simp only [Except.map, Except.ok.injEq, Prod.mk.injEq]
      refine iff_of_false nofun ?_
      rintro ⟨_, ⟨-, rfl⟩, hall⟩
      exact Bool.false_ne_true (hnot.symm.trans (hall d (List.mem_append_left _ hd)))

end Numeral

/-! ### A line of settings -/

namespace Settings

/-- The entry of a line with a key, an equals sign between blanks and a value. -/
theorem entry_of_line (hne : key ≠ []) (hkey : ∀ c ∈ key, isTail c = false ∧ c ≠ '=' ∧ c ≠ '#')
    (value : List Char) :
    entry? (key ++ ' ' :: '=' :: ' ' :: value) =
      some (String.ofList key, String.ofList (trim value)) := by
  have htrimmed : Trimmed key := by
    refine ⟨fun c hc => ?_, fun c hc => (hkey c (List.mem_of_getLast? hc)).1⟩
    have hc := (hkey c (List.mem_of_head? hc)).1
    simp only [isTail, Bool.or_eq_false_iff] at hc
    exact hc.1.1
  have hsign : '=' ∉ key := fun h => (hkey _ h).2.1 rfl
  have hmark : key.head? ≠ some '#' := fun h => (hkey _ (List.mem_of_head? h)).2.2 rfl
  have hvalue : trim ([' '] ++ value) = trim value := append_trim (List.forall_mem_singleton.2 rfl) value
  rw [← hvalue]
  exact @entry_of_key key [] [' '] (List.forall_mem_nil _) (List.forall_mem_singleton.2 rfl) htrimmed
    hne hsign hmark (' ' :: value)

/-- A text of one such line, which may end in a line break, puts the value under that key. -/
theorem get?_parse_of_line {text : String} (hne : key ≠ [])
    (hkey : ∀ c ∈ key, isTail c = false ∧ c ≠ '=' ∧ c ≠ '#') (hvalue : '\n' ∉ value)
    (htext : text.toList = key ++ ' ' :: '=' :: ' ' :: value ∨
      text.toList = key ++ ' ' :: '=' :: ' ' :: value ++ ['\n']) (name : String) :
    (parse text).get? name =
      if name = String.ofList key then some (String.ofList (trim value)) else none := by
  let line := String.ofList (key ++ ' ' :: '=' :: ' ' :: value)
  have hbreak : ∀ l ∈ [line], '\n' ∉ l.toList := by
    have hkey' : '\n' ∉ key := fun h => Bool.false_ne_true ((hkey _ h).1.symm.trans (by decide))
    rintro _ (_ | ⟨_, ⟨⟩⟩)
    simpa [line] using ⟨hkey', hvalue⟩
  have hline : text = "\n".intercalate [line] ∨ text = "\n".intercalate [line] ++ "\n" := by
    rw [String.intercalate_singleton]
    refine htext.imp (fun h => ?_) fun h => ?_
    · rw [← String.toList_inj, h, String.toList_ofList]
    · rw [← String.toList_inj, h, String.toList_append, String.toList_ofList]
      rfl
  have hentry : entry? line.toList = some (String.ofList key, String.ofList (trim value)) := by
    rw [String.toList_ofList]
    exact entry_of_line hne hkey value
  have hentries : [line].filterMap (fun l => entry? l.toList) =
      [(String.ofList key, String.ofList (trim value))] := List.filterMap_cons_some hentry
  rw [parse_intercalate hbreak hline, hentries]
  exact Dict.get?_insert .empty name _ _

end Settings
end Patchbay
