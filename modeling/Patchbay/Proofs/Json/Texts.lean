import Patchbay.Proofs.Dict
import Patchbay.Proofs.Json.Numbers
/-!
# JSON texts that are read back

The text of a JSON value is read as that value, indented or not, except that a double that is no
number is read as null. Integers must have a place in 64 bits, and the members of an object must be
listed by ascending key.

## Main definitions

* `Json.Tidy`: a value that a text can tell.
* `Json.reread`: what is read of a value.

## Main statements

* `Json.parse_print`: the text of a value is read.
-/
namespace Patchbay

namespace Json

/-- A value that a text can tell. -/
inductive Tidy : Json → Prop where
  | null : Tidy null
  | bool (b : Bool) : Tidy (bool b)
  | int {n : ℤ} (h : Parser.hasPlace n = true) : Tidy (int n)
  | double (x : Double) : Tidy (double x)
  | string (s : String) : Tidy (string s)
  | array {js : List Json} (h : ∀ j ∈ js, Tidy j) : Tidy (array js)
  | object {ms : List (String × Json)} (ascending : ms.Pairwise fun a b => a.1 < b.1)
    (h : ∀ m ∈ ms, Tidy m.2) : Tidy (object ms)

/-- Is a floating point number neither infinite nor what is not a number? -/
def isNumber (x : Float) : Bool :=
  match Decimal.Binary.decode x with
  | .finite _ _ _ => true
  | _ => false

/-- What is read of a double: nothing if it is no number. -/
def rereadDouble (x : Double) : Json := if isNumber x.toFloat then double (.of x.toFloat) else null

mutual

/-- What is read of a value. -/
def reread : Json → Json
  | null => null
  | bool b => bool b
  | int n => int n
  | double x => rereadDouble x
  | string s => string s
  | array js => array (rereadItems js)
  | object ms => object (rereadMembers ms)

/-- What is read of the items of an array. -/
def rereadItems : List Json → List Json
  | [] => []
  | j :: js => j.reread :: rereadItems js

/-- What is read of the members of an object. -/
def rereadMembers : List (String × Json) → List (String × Json)
  | [] => []
  | (key, j) :: ms => (key, j.reread) :: rereadMembers ms

end

@[simp] theorem reread_null : null.reread = null := by rw [reread]

@[simp] theorem reread_bool (b : Bool) : (bool b).reread = bool b := by rw [reread]

@[simp] theorem reread_int (n : ℤ) : (int n).reread = int n := by rw [reread]

@[simp] theorem reread_double (x : Double) : (double x).reread = rereadDouble x := by rw [reread]

@[simp] theorem reread_string (s : String) : (string s).reread = string s := by rw [reread]

theorem rereadItems_eq (js : List Json) : rereadItems js = js.map reread := by
  induction js with
  | nil => rfl
  | cons j js ih => rw [rereadItems, ih, List.map_cons]

theorem rereadMembers_eq (ms : List (String × Json)) :
    rereadMembers ms = ms.map fun m => (m.1, m.2.reread) := by
  induction ms with
  | nil => rfl
  | cons m ms ih => rw [rereadMembers, ih, List.map_cons]

@[simp] theorem reread_array (js : List Json) : (array js).reread = array (js.map reread) := by
  rw [reread, rereadItems_eq]

@[simp] theorem reread_object (ms : List (String × Json)) :
    (object ms).reread = object (ms.map fun m => (m.1, m.2.reread)) := by
  rw [reread, rereadMembers_eq]

/-- A double is read as a double or as null. -/
theorem kind_rereadDouble (x : Double) :
    (rereadDouble x).kind = if isNumber x.toFloat then .number else .null := by
  rw [rereadDouble]
  split <;> rfl

/-- The members of an object are found under the same keys. -/
theorem member?_reread (j : Json) (key : String) :
    j.reread.member? key = (j.member? key).map reread := by
  cases j with
  | object ms =>
    simp only [reread_object, member?, List.find?_map, Option.map_map, Function.comp_def]
  | double x =>
    rw [reread_double, rereadDouble]
    split <;> rfl
  | _ => simp [member?]

/-! ### Texts in quotes -/

namespace Parser

theorem hexValue?_hexDigit {n : ℕ} (h : n < 16) : hexValue? (hexDigit n) = some n := by
  revert n
  decide

/-- An escaped character is read as it was written. -/
theorem quoted_escape (rounds : ℕ) (taken : List Char) (c : Char) (s : List Char) :
    quoted (rounds + 1) taken (escape c ++ s) = quoted rounds (c :: taken) s := by
  rw [escape]
  iterate 7
    split
    · next h =>
      subst h
      rfl
  split
  · next h =>
    have h₁ := hexValue?_hexDigit (n := c.toNat / 16) (by omega)
    have h₂ := hexValue?_hexDigit (n := c.toNat % 16) (by omega)
    have hc : ((0 * 16 + 0) * 16 + c.toNat / 16) * 16 + c.toNat % 16 = c.toNat := by omega
    have hunit : unit ('0' :: '0' :: hexDigit (c.toNat / 16) :: hexDigit (c.toNat % 16) :: s) =
        .ok (c.toNat, s) := by
      simp only [unit, h₁, h₂, show hexValue? '0' = some 0 from rfl, hc]
    have hhigh : isHigh c.toNat = false := by
      rw [isHigh, Bool.and_eq_false_iff]
      exact .inl (decide_eq_false (by omega))
    have hlow : isLow c.toNat = false := by
      rw [isLow, Bool.and_eq_false_iff]
      exact .inl (decide_eq_false (by omega))
    have hnumbered : numbered
        ('0' :: '0' :: hexDigit (c.toNat / 16) :: hexDigit (c.toNat % 16) :: s) = .ok (c, s) := by
      simp only [numbered, hunit, bind, Except.bind, hhigh, hlow, Char.ofNat_toNat]
      rfl
    change (numbered ('0' :: '0' :: hexDigit (c.toNat / 16) :: hexDigit (c.toNat % 16) :: s)).bind
      (fun p => quoted rounds (p.1 :: taken) p.2) = _
    rw [hnumbered]
    rfl
  · next hquote hback _ _ _ _ _ hcontrol =>
    rw [List.singleton_append, quoted]
    · exact if_neg hcontrol
    · exact hquote
    · exact hback

/-- A text in quotes is read as it was written. -/
theorem string_quote (s : String) (rest : List Char) :
    string (s.toList.flatMap escape ++ '"' :: rest) = .ok (s, rest) := by
  have hquoted (cs taken : List Char) (rounds : ℕ) (h : cs.length < rounds) :
      quoted rounds taken (cs.flatMap escape ++ '"' :: rest) =
        .ok (String.ofList (taken.reverse ++ cs), rest) := by
    induction cs generalizing taken rounds with
    | nil =>
      obtain ⟨n, rfl⟩ := Nat.exists_eq_add_of_lt h
      rw [List.append_nil]
      rfl
    | cons c cs ih =>
      obtain ⟨n, rfl⟩ : ∃ n, rounds = n + 1 := ⟨rounds - 1, by omega⟩
      rw [List.flatMap_cons, List.append_assoc, quoted_escape, ih _ _ (by simpa using h),
        List.reverse_cons, List.append_assoc]
      rfl
  have hlength : s.toList.length ≤ (s.toList.flatMap escape).length := by
    induction s.toList with
    | nil => exact Nat.le_refl _
    | cons c cs ih =>
      have hone : 1 ≤ (escape c).length := by
        rw [escape]
        split_ifs <;> simp
      rw [List.flatMap_cons, List.length_append, List.length_cons]
      omega
  rw [string, hquoted]
  · rw [List.reverse_nil, List.nil_append, String.ofList_toList]
  · rw [List.length_append]
    omega

/-! ### Blanks -/

/-- Blanks in front are passed over. -/
theorem skip_append {blanks : List Char} (hb : ∀ c ∈ blanks, isSpace c = true) (s : List Char) :
    skip (blanks ++ s) = skip s := List.dropWhile_append_of_pos hb

theorem skip_cons {c : Char} (hc : isSpace c = false) (s : List Char) : skip (c :: s) = c :: s :=
  List.dropWhile_cons_of_neg (by simp [hc])

/-- An array that does not end at once has items. -/
theorem value_bracket {s t : List Char} {c : Char} (h : skip s = c :: t) (hc : c ≠ ']') (n : ℕ) :
    value (n + 1) ('[' :: s) = items n [] (c :: t) := by
  rw [value, skip_cons (by decide)]
  simp only [h]
  split
  · next h' => exact absurd (List.cons.inj h').1 hc
  · rfl

/-- An object that does not end at once has members. -/
theorem value_brace {s t : List Char} {c : Char} (h : skip s = c :: t) (hc : c ≠ '\x7d') (n : ℕ) :
    value (n + 1) ('\x7b' :: s) = members n [] (c :: t) := by
  rw [value, skip_cons (by decide)]
  simp only [h]
  split
  · next h' => exact absurd (List.cons.inj h').1 hc
  · rfl

/-- The beginning of a line is blank. -/
theorem isSpace_newline (sp : Spacing) (depth : ℕ) : ∀ c ∈ (sp.newline depth).toList,
    isSpace c = true := by
  rw [Spacing.newline]
  cases sp.indent with
  | none => nofun
  | some n =>
    intro c hc
    rw [String.toList_ofList] at hc
    rcases List.mem_cons.1 hc with rfl | hc
    · rfl
    · rw [List.eq_of_mem_replicate hc]
      rfl

/-- Between a key and its value there are only a colon and a blank. -/
theorem exists_colon (sp : Spacing) : ∃ blanks, sp.colon.toList = ':' :: blanks ∧
    ∀ c ∈ blanks, isSpace c = true := by
  rw [Spacing.colon]
  split
  · exact ⟨[' '], rfl, fun c hc => List.mem_singleton.1 hc ▸ rfl⟩
  · exact ⟨[], rfl, nofun⟩

end Parser

/-! ### Values -/

/-- A value is read as it was written, after blanks and in front of what does not belong to it. Its
text is not taken for blanks or for the end of an array. -/
structure Readable (sp : Spacing) (j : Json) : Prop where
  first : ∀ depth, ∃ c t, (write sp depth j).toList = c :: t ∧ Parser.isSpace c = false ∧ c ≠ ']'
  value : ∀ depth rounds blanks rest, (∀ c ∈ blanks, Parser.isSpace c = true) →
    2 * (write sp depth j).toList.length ≤ rounds → Stops rest →
    Parser.value rounds (blanks ++ (write sp depth j).toList ++ rest) = .ok (j.reread, rest)

section Values
variable {sp : Spacing}

/-- What stands behind a value in an array or an object does not belong to it. -/
theorem stops_append {blanks rest : List Char} (hb : ∀ c ∈ blanks, Parser.isSpace c = true)
    (h : Stops rest) : Stops (blanks ++ rest) := by
  cases blanks with
  | nil => exact h
  | cons c cs =>
    rintro d ⟨rfl⟩
    have hc := hb c List.mem_cons_self
    simp only [Parser.isSpace, Bool.or_eq_true, decide_eq_true_eq] at hc
    rcases hc with ((rfl | rfl) | rfl) | rfl <;> exact ⟨rfl, by decide, by decide, by decide⟩

/-- A value is read if its text is read from its first character on. -/
theorem readable_of_cons {j : Json} (h : ∀ depth, ∃ c t, (write sp depth j).toList = c :: t ∧
    Parser.isSpace c = false ∧ c ≠ ']' ∧ ∀ n rest, 2 * t.length < n → Stops rest →
      Parser.value (n + 1) (c :: (t ++ rest)) = .ok (j.reread, rest)) : Readable sp j := by
  refine ⟨fun depth => ?_, fun depth rounds blanks rest hb hn hrest => ?_⟩
  · obtain ⟨c, t, htext, hc, hne, -⟩ := h depth
    exact ⟨c, t, htext, hc, hne⟩
  obtain ⟨c, t, htext, hc, -, hvalue⟩ := h depth
  rw [htext, List.length_cons] at hn
  obtain ⟨n, rfl⟩ : ∃ n, rounds = n + 1 := ⟨rounds - 1, by omega⟩
  have hskip : Parser.value (n + 1) (blanks ++ c :: (t ++ rest)) =
      Parser.value (n + 1) (c :: (t ++ rest)) := by
    rw [Parser.value, Parser.value, Parser.skip_append hb]
  rw [htext, List.append_assoc, List.cons_append, hskip]
  exact hvalue n rest (by omega) hrest

/-- What begins with a digit or a minus is a number. -/
theorem value_number (rounds : ℕ) {c : Char} (hc : c.isDigit = true ∨ c = '-') (s : List Char) :
    Parser.isSpace c = false ∧ c ≠ ']' ∧
      Parser.value (rounds + 1) (c :: s) = Parser.number (c :: s) := by
  have hne (d : Char) (hd : d.isDigit = false ∧ d ≠ '-') : c ≠ d := by
    rintro rfl
    rcases hc with hc | hc
    · rw [hd.1] at hc
      cases hc
    · exact hd.2 hc
  have hspace : Parser.isSpace c = false := by
    simp only [Parser.isSpace, Bool.or_eq_false_iff, decide_eq_false_iff_not]
    exact ⟨⟨⟨hne _ (by decide), hne _ (by decide)⟩, hne _ (by decide)⟩, hne _ (by decide)⟩
  refine ⟨hspace, hne _ (by decide), ?_⟩
  rw [Parser.value, Parser.skip_cons hspace]
  split
  · next h => exact absurd (List.cons.inj h).1 (hne _ (by decide))
  · next h => exact absurd (List.cons.inj h).1 (hne _ (by decide))
  · next h => exact absurd (List.cons.inj h).1 (hne _ (by decide))
  · next h => exact absurd (List.cons.inj h).1 (hne _ (by decide))
  · next h => exact absurd (List.cons.inj h).1 (hne _ (by decide))
  · next h => exact absurd (List.cons.inj h).1 (hne _ (by decide))
  · rfl

theorem readable_null : Readable sp null := by
  refine readable_of_cons fun depth => ⟨'n', ['u', 'l', 'l'], by rw [write]; rfl, rfl, by decide, ?_⟩
  intro n rest _ _
  rw [reread]
  rfl

theorem readable_bool (b : Bool) : Readable sp (bool b) := by
  cases b with
  | true =>
    refine readable_of_cons fun depth => ⟨'t', ['r', 'u', 'e'], by rw [write]; rfl, rfl, by decide, ?_⟩
    intro n rest _ _
    rw [reread]
    rfl
  | false =>
    refine readable_of_cons fun depth => ⟨'f', ['a', 'l', 's', 'e'], by rw [write]; rfl, rfl, by decide, ?_⟩
    intro n rest _ _
    rw [reread]
    rfl

theorem readable_string (s : String) : Readable sp (string s) := by
  refine readable_of_cons fun depth => ⟨'"', s.toList.flatMap escape ++ ['"'], ?_, rfl,
    by decide, ?_⟩
  · rw [write, quote, String.toList_ofList]
  · intro n rest _ _
    rw [reread, List.append_assoc]
    change (Parser.string (s.toList.flatMap escape ++ '"' :: rest)).bind
      (fun p => .ok (Json.string p.1, p.2)) = _
    rw [Parser.string_quote]
    rfl

/-- A number begins with a digit or a minus. -/
theorem first_of_number {s : List Char} {p : Json × List Char} (h : Parser.number s = .ok p) :
    ∃ c t, s = c :: t ∧ (c.isDigit = true ∨ c = '-') := by
  cases s with
  | nil => cases h
  | cons c t =>
    refine ⟨c, t, rfl, ?_⟩
    by_contra hc
    obtain ⟨hdigit, hminus⟩ := not_or.1 hc
    have hzero : c ≠ '0' := by
      rintro rfl
      exact hdigit rfl
    have hwhole : Parser.whole (c :: t) = .error (.unexpected c) := by
      rw [Parser.whole, Parser.digits]
      · simp only [List.takeWhile_cons_of_neg hdigit, List.dropWhile_cons_of_neg hdigit]
        rfl
      · exact fun s hs => hzero (List.cons.inj hs).1
    rw [Parser.number_of_ne fun s hs => hminus (List.cons.inj hs).1, Parser.unsigned, hwhole] at h
    cases h

/-- A number is read if it is read as a number. -/
theorem readable_of_number {j k : Json} {s : List Char} (hj : j.reread = k)
    (htext : ∀ depth, (write sp depth j).toList = s)
    (hread : ∀ rest, Stops rest → Parser.number (s ++ rest) = .ok (k, rest)) : Readable sp j := by
  have hnil := hread [] nofun
  rw [List.append_nil] at hnil
  obtain ⟨c, t, rfl, hc⟩ := first_of_number hnil
  obtain ⟨hspace, hne, -⟩ := value_number 0 hc []
  refine readable_of_cons fun depth => ⟨c, t, htext depth, hspace, hne, ?_⟩
  intro n rest _ hrest
  rw [(value_number n hc _).2.2, hj]
  exact hread rest hrest

theorem readable_int {n : ℤ} (hn : Parser.hasPlace n = true) : Readable sp (int n) :=
  readable_of_number (by rw [reread])
    (fun depth => by rw [write, Numeral.intText, String.toList_ofList])
    fun rest hrest => number_write hn hrest

/-- A double that is no number is read as null. -/
theorem readable_double (x : Double) : Readable sp (double x) := by
  have hnull (hdecode : ∀ negative m e, Decimal.Binary.decode x.toFloat ≠ .finite negative m e) :
      Readable sp (double x) := by
    have htext (depth : ℕ) : write sp depth (double x) = write sp depth null := by
      rw [write, write, doubleText]
      split
      · next h => exact absurd h (hdecode _ _ _)
      · rfl
    have hreread : (double x).reread = null.reread := by
      rw [reread_double, reread_null, rereadDouble, isNumber]
      split
      · next h => exact absurd h (hdecode _ _ _)
      · rfl
    refine ⟨fun depth => ?_, fun depth rounds blanks rest hb hn hrest => ?_⟩
    · rw [htext]
      exact readable_null.first depth
    · rw [htext] at hn ⊢
      rw [hreread]
      exact readable_null.value depth rounds blanks rest hb hn hrest
  cases hx : Decimal.Binary.decode x.toFloat with
  | nan => exact hnull fun _ _ _ h => by rw [hx] at h; cases h
  | infinite negative => exact hnull fun _ _ _ h => by rw [hx] at h; cases h
  | finite negative m e =>
    refine readable_of_number (k := double (.of x.toFloat))
      (s := Decimal.shortest doubleStyle negative m e) ?_ (fun depth => ?_) fun rest hrest => ?_
    · rw [reread_double, rereadDouble, isNumber, hx, if_pos rfl]
    · rw [write, doubleText, hx, String.toList_ofList]
    · rw [number_shortest (Decimal.Binary.fits_of_decode hx) hrest,
        Decimal.Binary.pack_of_decode hx]

/-- What begins with the end of an array or an object does not belong to a value. -/
theorem stops_cons {c : Char} (hc : c = ',' ∨ c = ']' ∨ c = '\x7d') (rest : List Char) :
    Stops (c :: rest) := by
  rintro _ ⟨rfl⟩
  rcases hc with rfl | rfl | rfl <;> exact ⟨rfl, by decide, by decide, by decide⟩

/-! ### Arrays -/

/-- What follows an item begins with a comma or is the end of the array. -/
theorem stops_items (sp : Spacing) (depth : ℕ) (js : List Json) {blanks : List Char}
    (hb : ∀ c ∈ blanks, Parser.isSpace c = true) (rest : List Char) :
    Stops ((writeItems sp depth js).toList ++ (blanks ++ ']' :: rest)) := by
  cases js with
  | nil =>
    rw [writeItems]
    change Stops (blanks ++ ']' :: rest)
    exact stops_append hb (stops_cons (.inr (.inl rfl)) rest)
  | cons j js =>
    rw [writeItems]
    simp only [String.toList_append, List.append_assoc]
    exact stops_cons (.inl rfl) _

/-- The items of an array are read one after the other. -/
theorem items_append {j : Json} {js : List Json} (hj : Readable sp j)
    (hjs : ∀ k ∈ js, Readable sp k) (depth rounds : ℕ) (taken : List Json)
    (before : List Char) {after : List Char} (rest : List Char)
    (hbefore : ∀ c ∈ before, Parser.isSpace c = true)
    (hafter : ∀ c ∈ after, Parser.isSpace c = true)
    (hn : 2 * ((write sp depth j).toList.length + (writeItems sp depth js).toList.length) < rounds) :
    Parser.items rounds taken (before ++ (write sp depth j).toList ++
        ((writeItems sp depth js).toList ++ (after ++ ']' :: rest))) =
      .ok (array (taken.reverse ++ (j :: js).map reread), rest) := by
  induction js generalizing j rounds taken before with
  | nil =>
    obtain ⟨n, rfl⟩ : ∃ n, rounds = n + 1 := ⟨rounds - 1, by omega⟩
    have hvalue := hj.value depth n before _ hbefore (by omega) (stops_items sp depth [] hafter rest)
    have hskip : Parser.skip ((writeItems sp depth []).toList ++ (after ++ ']' :: rest)) =
        ']' :: rest := by
      rw [writeItems]
      exact (Parser.skip_append hafter _).trans rfl
    simp only [Parser.items, hvalue, bind, Except.bind, hskip]
    rw [List.reverse_cons]
    rfl
  | cons k js ih =>
    obtain ⟨n, rfl⟩ : ∃ n, rounds = n + 1 := ⟨rounds - 1, by omega⟩
    obtain ⟨hk, hjs⟩ := List.forall_mem_cons.1 hjs
    have hvalue := hj.value depth n before _ hbefore (by omega)
      (stops_items sp depth (k :: js) hafter rest)
    have hlength : (writeItems sp depth (k :: js)).toList.length = 1 +
        (sp.newline depth).toList.length + (write sp depth k).toList.length +
        (writeItems sp depth js).toList.length := by
      rw [writeItems]
      simp only [String.toList_append, List.length_append]
      rfl
    have hskip : Parser.skip ((writeItems sp depth (k :: js)).toList ++ (after ++ ']' :: rest)) =
        ',' :: ((sp.newline depth).toList ++ (write sp depth k).toList ++
          ((writeItems sp depth js).toList ++ (after ++ ']' :: rest))) := by
      rw [writeItems]
      simp only [String.toList_append, List.append_assoc]
      rfl
    have hrest := ih hk hjs n (j.reread :: taken) (sp.newline depth).toList
      (Parser.isSpace_newline sp depth) (by omega)
    simp only [Parser.items, hvalue, bind, Except.bind, hskip, hrest]
    rw [List.reverse_cons, List.append_assoc]
    rfl

theorem readable_array {js : List Json} (hjs : ∀ j ∈ js, Readable sp j) :
    Readable sp (array js) := by
  cases js with
  | nil =>
    refine readable_of_cons fun depth => ⟨'[', [']'], by rw [write]; rfl, rfl, by decide, ?_⟩
    intro n rest _ _
    rw [reread, rereadItems]
    rfl
  | cons j js =>
    obtain ⟨hj, hjs⟩ := List.forall_mem_cons.1 hjs
    refine readable_of_cons fun depth => ⟨'[', (sp.newline (depth + 1)).toList ++
      (write sp (depth + 1) j).toList ++ ((writeItems sp (depth + 1) js).toList ++
        ((sp.newline depth).toList ++ [']'])), ?_, rfl, by decide, ?_⟩
    · rw [write]
      simp only [String.toList_append, List.append_assoc]
      rfl
    · intro n rest hn _
      obtain ⟨c, t, htext, hc, hne⟩ := hj.first (depth + 1)
      have hitems := items_append hj hjs (depth + 1) n [] [] rest nofun
        (Parser.isSpace_newline sp depth) (by
          simp only [List.length_append] at hn
          omega)
      have hskip : Parser.skip ((sp.newline (depth + 1)).toList ++
          (write sp (depth + 1) j).toList ++ ((writeItems sp (depth + 1) js).toList ++
            ((sp.newline depth).toList ++ [']'])) ++ rest) =
          c :: (t ++ ((writeItems sp (depth + 1) js).toList ++
            ((sp.newline depth).toList ++ ']' :: rest))) := by
        simp only [List.append_assoc]
        rw [Parser.skip_append (Parser.isSpace_newline sp _), htext]
        exact Parser.skip_cons hc _
      rw [List.nil_append, htext, List.reverse_nil, List.nil_append, ← rereadItems_eq] at hitems
      rw [reread]
      exact (Parser.value_bracket hskip hne n).trans hitems

/-! ### Objects -/

/-- What is read of a member. -/
def rereadMember (m : String × Json) : String × Json := (m.1, m.2.reread)

/-- What follows a member begins with a comma or is the end of the object. -/
theorem stops_members (sp : Spacing) (depth : ℕ) (ms : List (String × Json)) {blanks : List Char}
    (hb : ∀ c ∈ blanks, Parser.isSpace c = true) (rest : List Char) :
    Stops ((writeMembers sp depth ms).toList ++ (blanks ++ '\x7d' :: rest)) := by
  cases ms with
  | nil =>
    rw [writeMembers]
    change Stops (blanks ++ '\x7d' :: rest)
    exact stops_append hb (stops_cons (.inr (.inr rfl)) rest)
  | cons m ms =>
    rw [writeMembers]
    simp only [String.toList_append, List.append_assoc]
    exact stops_cons (.inl rfl) _

/-- A member is read before what follows it. -/
theorem members_step {m : String × Json} (hm : Readable sp m.2) (depth n : ℕ)
    (taken : List (String × Json)) {before tail s : List Char} {c : Char}
    (hbefore : ∀ c ∈ before, Parser.isSpace c = true) (htail : Stops tail)
    (hn : 2 * (writeMember sp depth m).toList.length ≤ n) (hskip : Parser.skip tail = c :: s) :
    Parser.members (n + 1) taken (before ++ (writeMember sp depth m).toList ++ tail) =
      if c = ',' then Parser.members n (rereadMember m :: taken) s
      else if c = '\x7d' then .ok (.ofMembers (rereadMember m :: taken).reverse, s)
      else Parser.fail (c :: s) := by
  obtain ⟨key, j⟩ := m
  obtain ⟨blanks, hcolon, hblanks⟩ := Parser.exists_colon sp
  have htext : (writeMember sp depth (key, j)).toList = '"' :: (key.toList.flatMap escape ++
      '"' :: ':' :: (blanks ++ (write sp depth j).toList)) := by
    rw [writeMember]
    simp only [String.toList_append, quote, String.toList_ofList, hcolon, List.append_assoc,
      List.cons_append, List.nil_append]
  have hlength : (write sp depth j).toList.length ≤
      (writeMember sp depth (key, j)).toList.length := by
    rw [htext]
    simp only [List.length_cons, List.length_append]
    omega
  have hfront : Parser.skip (before ++ (writeMember sp depth (key, j)).toList ++ tail) =
      '"' :: (key.toList.flatMap escape ++
        '"' :: ':' :: (blanks ++ (write sp depth j).toList ++ tail)) := by
    rw [List.append_assoc, Parser.skip_append hbefore, htext]
    simp only [List.cons_append, List.append_assoc]
    rfl
  have hvalue := hm.value depth n blanks tail hblanks (by dsimp only; omega) htail
  dsimp only at hvalue
  have hmark : Parser.skip (':' :: (blanks ++ (write sp depth j).toList ++ tail)) =
      ':' :: (blanks ++ (write sp depth j).toList ++ tail) := rfl
  simp only [Parser.members, hfront, Parser.string_quote, bind, Except.bind, hmark, hvalue, hskip]
  split
  · next h =>
    obtain ⟨rfl, rfl⟩ := List.cons.inj h
    rfl
  · next h =>
    obtain ⟨rfl, rfl⟩ := List.cons.inj h
    rfl
  · next hcomma hend =>
    have hcomma : c ≠ ',' := fun hc => hcomma s (congrArg (· :: s) hc)
    have hend : c ≠ '\x7d' := fun hc => hend s (congrArg (· :: s) hc)
    rw [if_neg hcomma, if_neg hend]

/-- The members of an object are read one after the other. -/
theorem members_append {m : String × Json} {ms : List (String × Json)} (hm : Readable sp m.2)
    (hms : ∀ k ∈ ms, Readable sp k.2) (depth rounds : ℕ) (taken : List (String × Json))
    (before : List Char) {after : List Char} (rest : List Char)
    (hbefore : ∀ c ∈ before, Parser.isSpace c = true)
    (hafter : ∀ c ∈ after, Parser.isSpace c = true)
    (hn : 2 * ((writeMember sp depth m).toList.length + (writeMembers sp depth ms).toList.length) <
      rounds) :
    Parser.members rounds taken (before ++ (writeMember sp depth m).toList ++
        ((writeMembers sp depth ms).toList ++ (after ++ '\x7d' :: rest))) =
      .ok (.ofMembers (taken.reverse ++ rereadMembers (m :: ms)), rest) := by
  induction ms generalizing m rounds taken before with
  | nil =>
    obtain ⟨n, rfl⟩ : ∃ n, rounds = n + 1 := ⟨rounds - 1, by omega⟩
    have hskip : Parser.skip ((writeMembers sp depth []).toList ++ (after ++ '\x7d' :: rest)) =
        '\x7d' :: rest := by
      rw [writeMembers]
      exact (Parser.skip_append hafter _).trans rfl
    rw [members_step hm depth n taken hbefore (stops_members sp depth [] hafter rest) (by omega)
      hskip, if_neg (by decide), if_pos rfl, List.reverse_cons]
    rfl
  | cons k ms ih =>
    obtain ⟨n, rfl⟩ : ∃ n, rounds = n + 1 := ⟨rounds - 1, by omega⟩
    obtain ⟨hk, hms⟩ := List.forall_mem_cons.1 hms
    have hlength : (writeMembers sp depth (k :: ms)).toList.length = 1 +
        (sp.newline depth).toList.length + (writeMember sp depth k).toList.length +
        (writeMembers sp depth ms).toList.length := by
      rw [writeMembers]
      simp only [String.toList_append, List.length_append]
      rfl
    have hskip : Parser.skip ((writeMembers sp depth (k :: ms)).toList ++
          (after ++ '\x7d' :: rest)) =
        ',' :: ((sp.newline depth).toList ++ (writeMember sp depth k).toList ++
          ((writeMembers sp depth ms).toList ++ (after ++ '\x7d' :: rest))) := by
      rw [writeMembers]
      simp only [String.toList_append, List.append_assoc]
      rfl
    rw [members_step hm depth n taken hbefore (stops_members sp depth (k :: ms) hafter rest)
      (by omega) hskip, if_pos rfl, ih hk hms n _ _ (Parser.isSpace_newline sp depth) (by omega),
      List.reverse_cons, List.append_assoc]
    rfl

/-- The keys stay as they are. -/
theorem pairwise_rereadMembers {ms : List (String × Json)}
    (h : ms.Pairwise fun a b => a.1 < b.1) :
    (rereadMembers ms).Pairwise fun a b => a.1 < b.1 := by
  rw [rereadMembers_eq, List.pairwise_map]
  exact h

theorem readable_object {ms : List (String × Json)} (ascending : ms.Pairwise fun a b => a.1 < b.1)
    (hms : ∀ m ∈ ms, Readable sp m.2) : Readable sp (object ms) := by
  cases ms with
  | nil =>
    refine readable_of_cons fun depth => ⟨'\x7b', ['\x7d'], by rw [write]; rfl, rfl, by decide, ?_⟩
    intro n rest _ _
    rw [reread, rereadMembers]
    rfl
  | cons m ms =>
    obtain ⟨hm, hms⟩ := List.forall_mem_cons.1 hms
    refine readable_of_cons fun depth => ⟨'\x7b', (sp.newline (depth + 1)).toList ++
      (writeMember sp (depth + 1) m).toList ++ ((writeMembers sp (depth + 1) ms).toList ++
        ((sp.newline depth).toList ++ ['\x7d'])), ?_, rfl, by decide, ?_⟩
    · rw [write]
      simp only [String.toList_append, List.append_assoc]
      rfl
    · intro n rest hn _
      have hmembers := members_append hm hms (depth + 1) n [] [] rest nofun
        (Parser.isSpace_newline sp depth) (by
          simp only [List.length_append] at hn
          omega)
      obtain ⟨t, ht⟩ : ∃ t, (writeMember sp (depth + 1) m).toList = '"' :: t := by
        obtain ⟨key, j⟩ := m
        rw [writeMember]
        simp only [String.toList_append, quote, String.toList_ofList, List.append_assoc,
          List.cons_append]
        exact ⟨_, rfl⟩
      have hskip : Parser.skip ((sp.newline (depth + 1)).toList ++
          (writeMember sp (depth + 1) m).toList ++ ((writeMembers sp (depth + 1) ms).toList ++
            ((sp.newline depth).toList ++ ['\x7d'])) ++ rest) =
          '"' :: (t ++ ((writeMembers sp (depth + 1) ms).toList ++
            ((sp.newline depth).toList ++ '\x7d' :: rest))) := by
        simp only [List.append_assoc]
        rw [Parser.skip_append (Parser.isSpace_newline sp _), ht]
        rfl
      rw [List.nil_append, ht, List.reverse_nil, List.nil_append, ofMembers,
        Dict.entries_ofList (pairwise_rereadMembers ascending)] at hmembers
      rw [reread]
      exact (Parser.value_brace hskip (by decide) n).trans hmembers

end Values

/-! ### Whole texts -/

/-- A value that a text can tell is read as it was written. -/
theorem readable_of_tidy {j : Json} (h : j.Tidy) (sp : Spacing) : Readable sp j := by
  induction h with
  | null => exact readable_null
  | bool b => exact readable_bool b
  | int h => exact readable_int h
  | double x => exact readable_double x
  | string s => exact readable_string s
  | array _ ih => exact readable_array ih
  | object ascending _ ih => exact readable_object ascending ih

/-- The text of a value is read as that value, but a double that is no number is read as null. -/
theorem parse_print {j : Json} (h : j.Tidy) (indent : Option ℕ) :
    parse (j.print indent) = .ok j.reread := by
  have hread := readable_of_tidy h ⟨indent⟩
  have hvalue := hread.value 0 (2 * (write ⟨indent⟩ 0 j).toList.length + 1) [] [] nofun
    (Nat.le_succ _) nofun
  rw [List.nil_append, List.append_nil] at hvalue
  have hmark : withoutMark (write ⟨indent⟩ 0 j).toList = (write ⟨indent⟩ 0 j).toList := by
    rw [withoutMark]
    intro s htext
    rw [htext] at hvalue
    obtain ⟨c, t, hc, hfirst⟩ := first_of_number (s := '\ufeff' :: s) hvalue
    obtain ⟨rfl, -⟩ := List.cons.inj hc
    rcases hfirst with h | h <;> cases h
  simp only [parse, print, hmark, hvalue, bind, Except.bind]
  rfl

end Json
end Patchbay
