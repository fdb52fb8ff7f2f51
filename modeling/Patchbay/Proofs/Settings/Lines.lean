import Mathlib.Data.List.DropRight
import Mathlib.Data.List.ReduceOption
import Patchbay.Proofs.Dict
import Patchbay.Settings
/-!
# Settings line by line

Each line of a text of settings stands for itself. It is blank, or a remark, or there is no equals
sign on it, or it is an entry, with blanks wherever one likes around its key and its value. A text
comes to its entries, and of those under one key to the last. Carriage returns at the ends of lines
are trimmed away with the blanks, so that it does not matter by which convention lines are broken.

## Main definitions

* `Settings.Line`: the shapes that a line can have, with the entry that a line of that shape makes.
* `Text.withReturns`: a text with a carriage return in front of every line feed.

## Main statements

* `Settings.entry_of_key`: the entry of a line with a key in front of its first equals sign.
* `Settings.Line.entry_eq`: lines make the entries that their shapes say.
* `Settings.parse_lines`: what a text of settings comes to.
-/
namespace Patchbay
variable {s key front before back : List Char}

/-! ### Lines of a text -/

namespace Text

/-- Cutting a text into lines is splitting it at its line feeds. -/
theorem lines_eq_splitOn (s : List Char) : lines s = s.splitOn '\n' := by
  induction s with
  | nil => rfl
  | cons c s ih =>
    rw [lines, List.splitOn_cons_eq_if_modifyHead, ← ih]
    by_cases hc : c = '\n'
    · simp [hc]
    · rw [if_neg hc, if_neg (by simpa using hc)]
      cases hs : lines s with
      | nil => exact absurd hs (lines_ne_nil s)
      | cons l ls => rfl

/-- Behind a line feed at the end there is one more line, without anything on it. -/
theorem lines_concat (s : List Char) : lines (s ++ ['\n']) = lines s ++ [[]] := by
  rw [lines_eq_splitOn, lines_eq_splitOn]
  exact List.splitOnP_append_cons s [] (beq_self_eq_true '\n')

/-- Lines that are put together are found again. -/
theorem lines_intercalate {ls : List String} (h : ∀ l ∈ ls, '\n' ∉ l.toList) (hls : ls ≠ []) :
    lines ("\n".intercalate ls).toList = ls.map String.toList := by
  rw [String.toList_intercalate, lines_eq_splitOn]
  refine List.splitOn_intercalate '\n' (fun cs hcs => ?_) (by simpa using hls)
  obtain ⟨l, hl, rfl⟩ := List.mem_map.1 hcs
  exact h l hl

/-- A text with a carriage return in front of every line feed. -/
def withReturns (text : String) : String :=
  String.ofList (text.toList.flatMap fun c => if c = '\n' then ['\r', '\n'] else [c])

/-- With carriage returns in front of the line feeds, every line stays as it is or has a carriage
return at its end. -/
theorem lines_withReturns (text : String) :
    List.Forall₂ (fun l l' => l = l' ∨ l = l' ++ ['\r']) (lines (withReturns text).toList)
      (lines text.toList) := by
  rw [withReturns, String.toList_ofList]
  induction text.toList with
  | nil => exact .cons (.inl rfl) .nil
  | cons c s ih =>
    rw [List.flatMap_cons, lines]
    by_cases hc : c = '\n'
    · subst hc
      exact .cons (.inr rfl) ih
    · rw [if_neg hc, if_neg hc, List.singleton_append, lines, if_neg hc]
      generalize lines s = ls at ih ⊢
      generalize lines _ = ls' at ih ⊢
      cases ih with
      | nil => exact .cons (.inl rfl) .nil
      | cons hl hls => exact .cons (hl.imp (congrArg (c :: ·)) (congrArg (c :: ·))) hls

end Text

namespace Settings

/-! ### Trimming -/

theorem isTail_of_isBlank {c : Char} (h : isBlank c = true) : isTail c = true := by
  rw [isTail, h, Bool.true_or, Bool.true_or]

theorem trim_eq (s : List Char) : trim s = (s.rdropWhile isTail).dropWhile isBlank := rfl

/-- What is trimmed is found in the text. -/
theorem trim_subset (s : List Char) : trim s ⊆ s := fun _ hc =>
  (s.rdropWhile_prefix isTail).subset ((List.dropWhile_suffix isBlank).subset hc)

theorem trim_rdropWhile (s : List Char) : trim (s.rdropWhile isTail) = trim s := by
  rw [trim_eq, trim_eq, List.rdropWhile_idempotent]

/-- A trimmed tail goes no further than to a character that does not belong to it. -/
theorem rdropWhile_append_cons {c : Char} (hc : isTail c = false) (s t : List Char) :
    (s ++ c :: t).rdropWhile isTail = s ++ c :: t.rdropWhile isTail := by
  simp only [List.rdropWhile, List.reverse_append, List.reverse_cons, List.append_assoc,
    List.dropWhile_append, List.singleton_append, List.dropWhile_cons, hc]
  by_cases ht : (t.reverse.dropWhile isTail).isEmpty = true
  · simp [List.isEmpty_iff.1 ht]
  · simp [ht]

/-- Blanks and line breaks behind a text are trimmed away. -/
theorem trim_append (hback : ∀ c ∈ back, isTail c = true) (s : List Char) :
    trim (s ++ back) = trim s := by
  have hdrop : (s ++ back).rdropWhile isTail = s.rdropWhile isTail := by
    rw [List.rdropWhile, List.reverse_append,
      List.dropWhile_append_of_pos fun c hc => hback c (List.mem_reverse.1 hc), List.rdropWhile]
  rw [trim_eq, hdrop, trim_eq]

theorem trim_eq_nil (h : ∀ c ∈ s, isTail c = true) : trim s = [] :=
  trim_append h []

/-- Blanks in front of a text are trimmed away. -/
theorem append_trim (hfront : ∀ c ∈ front, isBlank c = true) (s : List Char) :
    trim (front ++ s) = trim s := by
  by_cases hs : ∀ c ∈ s, isTail c = true
  · have hall : ∀ c ∈ front, isTail c = true := fun c hc => isTail_of_isBlank (hfront c hc)
    rw [trim_append hs, trim_eq_nil hall, trim_eq_nil hs]
  · -- A character of the text stops the trimming at the end.
    have hdrop : (front ++ s).rdropWhile isTail = front ++ s.rdropWhile isTail := by
      have hne : ¬ (s.reverse.dropWhile isTail).isEmpty = true := by
        rw [List.isEmpty_iff, List.dropWhile_eq_nil_iff]
        simpa using hs
      rw [List.rdropWhile, List.reverse_append, List.dropWhile_append, if_neg hne,
        List.reverse_append, List.reverse_reverse, List.rdropWhile]
    rw [trim_eq, hdrop, List.dropWhile_append_of_pos hfront, trim_eq]

/-- A text with no blank in front, and no blank or line break behind. -/
structure Trimmed (s : List Char) : Prop where
  front : ∀ c ∈ s.head?, isBlank c = false
  back : ∀ c ∈ s.getLast?, isTail c = false

instance (s : List Char) : Decidable (Trimmed s) :=
  decidable_of_iff (s.head?.all (!isBlank ·) ∧ s.getLast?.all (!isTail ·)) <| by
    simp only [Option.all_eq_true, Bool.not_eq_true']
    exact ⟨fun h => ⟨h.1, h.2⟩, fun h => ⟨h.front, h.back⟩⟩

/-- Nothing is trimmed away from such texts. -/
theorem Trimmed.trim_eq (h : Trimmed s) : trim s = s := by
  have hback : s.rdropWhile isTail = s := List.rdropWhile_eq_self_iff.2 fun hs => by
    simp [h.back _ (List.getLast?_eq_some_getLast hs)]
  rw [Settings.trim_eq, hback]
  cases s with
  | nil => rfl
  | cons c s => exact List.dropWhile_cons_of_neg (by simp [h.front c rfl])

/-! ### The entry of a line -/

/-- A line with a key in front of its first equals sign makes an entry. Blanks around the key do not
count, and the value is what stands behind the sign. -/
theorem entry_of_key (hfront : ∀ c ∈ front, isBlank c = true)
    (hbefore : ∀ c ∈ before, isBlank c = true) (hkey : Trimmed key) (hne : key ≠ [])
    (hsign : '=' ∉ key) (hmark : key.head? ≠ some '#') (rest : List Char) :
    entry? (front ++ (key ++ (before ++ '=' :: rest))) =
      some (String.ofList key, String.ofList (trim rest)) := by
  have hline : trim (front ++ (key ++ (before ++ '=' :: rest))) =
      key ++ before ++ '=' :: rest.rdropWhile isTail := by
    rw [append_trim hfront, ← List.append_assoc, trim_eq, rdropWhile_append_cons (by decide)]
    obtain ⟨c, cs, rfl⟩ := List.exists_cons_of_ne_nil hne
    exact List.dropWhile_cons_of_neg (by simp [hkey.front c rfl])
  have hhead : (key ++ before ++ '=' :: rest.rdropWhile isTail).head? = key.head? := by
    rw [List.append_assoc, List.head?_append_of_ne_nil _ hne]
  have hname : trim (key ++ before) = key := by
    rw [trim_append fun c hc => isTail_of_isBlank (hbefore c hc), hkey.trim_eq]
  have hskip : ∀ c ∈ key ++ before, decide (c ≠ '=') = true := by
    intro c hc
    rw [decide_eq_true_iff]
    rintro rfl
    rcases List.mem_append.1 hc with hc | hc
    · exact hsign hc
    · cases (hbefore _ hc).symm.trans (by decide : isBlank '=' = false)
  unfold entry?
  simp only [hline, hhead]
  rw [if_neg hmark, List.dropWhile_append_of_pos hskip, List.takeWhile_append_of_pos hskip]
  have hkept : (trim (key ++ before)).isEmpty = false := by
    rw [hname, List.isEmpty_eq_false_iff]
    exact hne
  simp only [ne_eq, not_true_eq_false, decide_false, List.dropWhile_cons_of_neg,
    List.takeWhile_cons_of_neg, Bool.false_eq_true, not_false_eq_true, List.append_nil, hkept,
    if_false]
  rw [hname, trim_rdropWhile]

/-- A text that has nothing but blanks. -/
def Blank (s : String) : Prop := ∀ c ∈ s.toList, isBlank c = true

instance (s : String) : Decidable (Blank s) :=
  decidable_of_iff (s.toList.all isBlank) List.all_eq_true

/-- The shapes that a line can have, and the entry that a line of that shape makes. -/
inductive Line : String → Option (String × String) → Prop where
  | blank {s : String} (h : ∀ c ∈ s.toList, isTail c = true) : Line s none
  | remark {front : String} (hfront : Blank front) (s : String) : Line (front ++ "#" ++ s) none
  | plain {s : String} (h : '=' ∉ s.toList) : Line s none
  | entry {front key before after value back : String} (hfront : Blank front)
    (hbefore : Blank before) (hafter : Blank after) (hback : Blank back)
    (hkey : Trimmed key.toList) (hne : key ≠ "") (hsign : '=' ∉ key.toList)
    (hmark : key.toList.head? ≠ some '#') (hvalue : Trimmed value.toList) :
    Line (front ++ key ++ before ++ "=" ++ after ++ value ++ back) (some (key, value))

/-- A line makes the entry that its shape says. -/
theorem Line.entry_eq {l : String} {e : Option (String × String)} (h : Line l e) :
    entry? l.toList = e := by
  cases h with
  | blank h =>
    unfold entry?
    rw [trim_eq_nil h]
    rfl
  | @remark front hfront s =>
    have hline : trim (front ++ "#" ++ s).toList = '#' :: s.toList.rdropWhile isTail := by
      rw [String.toList_append, String.toList_append, List.append_assoc, append_trim hfront]
      change trim ([] ++ '#' :: s.toList) = _
      rw [trim_eq, rdropWhile_append_cons (by decide)]
      rfl
    unfold entry?
    rw [hline]
    rfl
  | plain h =>
    have hnone : (trim l.toList).dropWhile (· ≠ '=') = [] := by
      rw [List.dropWhile_eq_nil_iff]
      rintro c hc
      rw [decide_eq_true_iff]
      rintro rfl
      exact h (trim_subset _ hc)
    unfold entry?
    simp only [hnone]
    split <;> rfl
  | @entry front key before after value back hfront hbefore hafter hback hkey hne hsign hmark
      hvalue =>
    have hline : (front ++ key ++ before ++ "=" ++ after ++ value ++ back).toList =
        front.toList ++ (key.toList ++ (before.toList ++ '=' ::
          (after.toList ++ (value.toList ++ back.toList)))) := by
      simp [String.toList_append]
    have hkept : trim (after.toList ++ (value.toList ++ back.toList)) = value.toList := by
      rw [append_trim hafter, trim_append fun c hc => isTail_of_isBlank (hback c hc),
        hvalue.trim_eq]
    rw [hline, entry_of_key hfront hbefore hkey (by simpa using hne) hsign hmark, hkept,
      String.ofList_toList, String.ofList_toList]

/-! ### Whole texts -/

/-- A text of lines, with or without a line feed at its end, comes to the entries of the lines. -/
theorem parse_intercalate {ls : List String} (h : ∀ l ∈ ls, '\n' ∉ l.toList) {text : String}
    (htext : text = "\n".intercalate ls ∨ text = "\n".intercalate ls ++ "\n") :
    parse text = ⟨.ofList (ls.filterMap fun l => entry? l.toList)⟩ := by
  have hone : (Text.lines ("\n".intercalate ls).toList).filterMap entry? =
      ls.filterMap fun l => entry? l.toList := by
    by_cases hls : ls = []
    · subst hls
      rfl
    · rw [Text.lines_intercalate h hls, List.filterMap_map]
      rfl
  rw [parse]
  rcases htext with rfl | rfl
  · rw [hone]
  · have hlast : entry? [] = none := rfl
    rw [String.toList_append]
    change Settings.mk (.ofList ((Text.lines (_ ++ ['\n'])).filterMap entry?)) = _
    rw [Text.lines_concat, List.filterMap_append, hone, List.filterMap_cons_none hlast,
      List.filterMap_nil, List.append_nil]

/-- Carriage returns in front of the line feeds do not matter. -/
theorem parse_withReturns (text : String) : parse (Text.withReturns text) = parse text := by
  have hreturn (l : List Char) : entry? (l ++ ['\r']) = entry? l := by
    unfold entry?
    rw [trim_append (List.forall_mem_singleton.2 rfl)]
  have hentries {ls ls' : List (List Char)}
      (h : List.Forall₂ (fun l l' => l = l' ∨ l = l' ++ ['\r']) ls ls') :
      ls.filterMap entry? = ls'.filterMap entry? := by
    induction h with
    | nil => rfl
    | cons hl _ ih =>
      rcases hl with rfl | rfl
      · rw [List.filterMap_cons, List.filterMap_cons, ih]
      · rw [List.filterMap_cons, List.filterMap_cons, hreturn, ih]
  rw [parse, hentries (Text.lines_withReturns text), parse]

/-- The settings of a text of lines are told by the shapes of the lines. Under a key there is the
value of the last entry with that key, and there are no other keys. It does not matter whether the
last line ends in a line feed; and in no text at all does it matter whether carriage returns stand
in front of the line feeds. -/
theorem parse_lines :
    (∀ (ls : List String) (es : List (Option (String × String))) (text : String),
      List.Forall₂ Line ls es → (∀ l ∈ ls, '\n' ∉ l.toList) →
      (text = "\n".intercalate ls ∨ text = "\n".intercalate ls ++ "\n") →
      (∀ key value, (parse text).get? key = some value ↔ ∃ before after,
        es.reduceOption = before ++ (key, value) :: after ∧ ∀ e ∈ after, e.1 ≠ key) ∧
      ∀ key, (parse text).has key = true ↔ key ∈ es.reduceOption.map (·.1)) ∧
    ∀ text, parse (Text.withReturns text) = parse text := by
  refine ⟨fun ls es text hlines hbreak htext => ?_, parse_withReturns⟩
  have hentries : ls.filterMap (fun l => entry? l.toList) = es.reduceOption := by
    clear hbreak htext
    induction hlines with
    | nil => rfl
    | @cons l e ls es hl _ ih =>
      rw [List.filterMap_cons, hl.entry_eq, ih]
      cases e <;> rfl
  rw [parse_intercalate hbreak htext, hentries]
  exact ⟨fun key value => Dict.get?_ofList_eq_some_iff,
    fun key => Dict.mem_keys.symm.trans Dict.mem_keys_ofList⟩

/-- A key with two values, and a key without any. -/
theorem parse_lines_twice :
    let ls := ["# max = 1", "\t", " max = 2\t", "max", "max=a=b", "note ="]
    let es := [none, none, some ("max", "2"), none, some ("max", "a=b"), some ("note", "")]
    List.Forall₂ Line ls es ∧ (∀ l ∈ ls, '\n' ∉ l.toList) ∧
      (parse ("\n".intercalate ls)).get? "max" = some "a=b" ∧
      (parse ("\n".intercalate ls ++ "\n")).get? "note" = some "" ∧
      parse (Text.withReturns ("\n".intercalate ls)) = parse ("\n".intercalate ls) := by
  intro ls es
  have hshapes : List.Forall₂ Line ls es := by
    refine .cons (@Line.remark "" (by decide) " max = 1") (.cons (.blank (List.all_eq_true.1 rfl)) (.cons ?_
      (.cons (.plain (by decide)) (.cons ?_ (.cons ?_ .nil)))))
    · exact @Line.entry " " "max" " " " " "2" "\t" (by decide) (by decide) (by decide) (by decide)
        (by decide) (by decide) (by decide) (by decide) (by decide)
    · exact @Line.entry "" "max" "" "" "a=b" "" (by decide) (by decide) (by decide) (by decide)
        (by decide) (by decide) (by decide) (by decide) (by decide)
    · exact @Line.entry "" "note" " " "" "" "" (by decide) (by decide) (by decide) (by decide)
        (by decide) (by decide) (by decide) (by decide) (by decide)
  have hbreak : ∀ l ∈ ls, '\n' ∉ l.toList := by decide
  refine ⟨hshapes, hbreak, ?_, ?_, parse_lines.2 _⟩
  · refine ((parse_lines.1 ls es _ hshapes hbreak (.inl rfl)).1 "max" "a=b").2 ?_
    exact ⟨[("max", "2")], [("note", "")], rfl, by decide⟩
  · refine ((parse_lines.1 ls es _ hshapes hbreak (.inr rfl)).1 "note" "").2 ?_
    exact ⟨[("max", "2"), ("max", "a=b")], [], rfl, by decide⟩

end Settings
end Patchbay
