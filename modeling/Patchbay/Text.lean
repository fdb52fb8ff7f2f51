/-!
# Lines and columns of text

Helpers on lists of characters: cutting a text into lines and padding it to a width. A
width counts bytes of the UTF-8 form.
-/
namespace Patchbay.Text

/-- Cut a text at its line feeds. A text without one is a single line, so there is always
at least one line. -/
def lines : List Char → List (List Char)
  | [] => [[]]
  | c :: s =>
    if c = '\n' then [] :: lines s
    else
      match lines s with
      | [] => [[c]]
      | l :: ls => (c :: l) :: ls

theorem lines_ne_nil (s : List Char) : lines s ≠ [] := by
  cases s with
  | nil => simp [lines]
  | cons c s =>
    simp only [lines]
    split
    · simp
    · split <;> simp

/-- Blanks that fill a text up to a width. -/
def filler (width : Nat) (s : String) : String :=
  String.ofList (List.replicate (width - s.utf8ByteSize) ' ')

/-- A text at the left of a column. -/
def padRight (width : Nat) (s : String) : String := s ++ filler width s

/-- A text at the right of a column. -/
def padLeft (width : Nat) (s : String) : String := filler width s ++ s

/-- Texts with a separator between them. -/
def join (sep : String) : List String → String
  | [] => ""
  | [s] => s
  | s :: rest => s ++ sep ++ join sep rest

/-- The part of a text before its first NUL character. Complaints, paths and stored texts
end there. -/
def untilNul (s : String) : String := String.ofList (s.toList.takeWhile (· ≠ '\x00'))

theorem untilNul_append {s : String} (h : '\x00' ∉ s.toList) (t : String) :
    untilNul (s ++ t) = s ++ untilNul t := by
  have hs : ∀ c ∈ s.toList, decide (c ≠ '\x00') = true := fun c hc =>
    decide_eq_true fun e => h (e ▸ hc)
  apply String.toList_injective
  simp only [untilNul, String.toList_append, String.toList_ofList,
    List.takeWhile_append_of_pos hs]

end Patchbay.Text
