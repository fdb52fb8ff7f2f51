/-!
# Ranking

A list is ranked by a test that says which items come before others. Items of which none
comes before the other keep their order. The two halves of the list are ranked on their own
and then merged, in a fixed order of tests, so that the outcome is determined also for a
test that is not an order.
-/
namespace Patchbay.Ranking
variable {α : Type}

/-- Put an item into a ranked list that is given from its end: behind the last item that it
does not come before. -/
def insertFromEnd (before : α → α → Bool) (x : α) : List α → List α
  | [] => [x]
  | y :: ys => if before x y then y :: insertFromEnd before x ys else x :: y :: ys

/-- Put an item into a ranked list. An item that comes before the first one is the first. -/
def insert (before : α → α → Bool) (x : α) (l : List α) : List α :=
  match l with
  | [] => [x]
  | y :: _ => if before x y then x :: l else (insertFromEnd before x l.reverse).reverse

/-- Rank a short list item by item. -/
def short (before : α → α → Bool) (l : List α) : List α :=
  l.foldl (fun ranked x => insert before x ranked) []

/-- Merge two ranked lists from their beginnings. -/
def merge (before : α → α → Bool) : List α → List α → List α
  | [], ys => ys
  | xs, [] => xs
  | x :: xs, y :: ys =>
    if before y x then y :: merge before (x :: xs) ys else x :: merge before xs (y :: ys)

/-- Merge two ranked lists that are given from their ends, and give the result so. -/
def mergeFromEnd (before : α → α → Bool) : List α → List α → List α
  | [], ys => ys
  | xs, [] => xs
  | x :: xs, y :: ys =>
    if before y x then x :: mergeFromEnd before xs (y :: ys)
    else y :: mergeFromEnd before (x :: xs) ys

/-- Cut a list into pieces of a length, as many as there are rounds. -/
def pieces (length : Nat) : Nat → List α → List (List α)
  | 0, _ => []
  | rounds + 1, l =>
    if l.isEmpty then [] else l.take length :: pieces length rounds (l.drop length)

/-- Merge neighbours. -/
def mergePairs (before : α → α → Bool) : List (List α) → List (List α)
  | a :: b :: rest => merge before a b :: mergePairs before rest
  | l => l

/-- Rank one half of a list: short pieces first, which are then merged in pairs. -/
def half (before : α → α → Bool) (l : List α) : List α :=
  let ranked := (pieces 7 l.length l).map (short before)
  (Nat.repeat (mergePairs before) l.length ranked).flatten

/-- Rank a list. The first half is the longer one. -/
def rank (before : α → α → Bool) (l : List α) : List α :=
  let a := half before (l.take ((l.length + 1) / 2))
  let b := half before (l.drop ((l.length + 1) / 2))
  if a.length ≤ b.length then merge before a b
  else (mergeFromEnd before a.reverse b.reverse).reverse

/-! ### Nothing is lost -/

theorem insertFromEnd_perm (before : α → α → Bool) (x : α) (l : List α) :
    (insertFromEnd before x l).Perm (x :: l) := by
  induction l with
  | nil => exact .refl _
  | cons y ys ih =>
    simp only [insertFromEnd]
    split
    · exact (ih.cons y).trans (.swap x y ys)
    · exact .refl _

theorem insert_perm (before : α → α → Bool) (x : α) (l : List α) :
    (insert before x l).Perm (x :: l) := by
  unfold insert
  split
  · exact .refl _
  · split
    · exact .refl _
    · exact (List.reverse_perm _).trans
        ((insertFromEnd_perm before x _).trans ((List.reverse_perm _).cons x))

theorem merge_perm (before : α → α → Bool) (a b : List α) :
    (merge before a b).Perm (a ++ b) := by
  fun_induction merge before a b with
  | case1 => exact .refl _
  | case2 => simp
  | case3 x xs y ys _ ih => exact (ih.cons y).trans List.perm_middle.symm
  | case4 x xs y ys _ ih => exact ih.cons x

theorem mergeFromEnd_perm (before : α → α → Bool) (a b : List α) :
    (mergeFromEnd before a b).Perm (a ++ b) := by
  fun_induction mergeFromEnd before a b with
  | case1 => exact .refl _
  | case2 => simp
  | case3 x xs y ys _ ih => exact ih.cons x
  | case4 x xs y ys _ ih => exact (ih.cons y).trans List.perm_middle.symm

theorem short_perm (before : α → α → Bool) (l : List α) : (short before l).Perm l := by
  suffices h : ∀ ranked : List α,
      (l.foldl (fun ranked x => insert before x ranked) ranked).Perm (ranked ++ l) by
    simpa [short] using h []
  induction l with
  | nil => simp
  | cons x l ih =>
    intro ranked
    exact (ih _).trans (((insert_perm before x ranked).append_right l).trans
      List.perm_middle.symm)

theorem flatten_pieces {length : Nat} (h : 0 < length) (rounds : Nat) (l : List α)
    (hl : l.length ≤ rounds) : (pieces length rounds l).flatten = l := by
  induction rounds generalizing l with
  | zero => simp [pieces, List.length_eq_zero_iff.1 (Nat.le_zero.1 hl)]
  | succ rounds ih =>
    simp only [pieces]
    split
    · next he => simp [List.isEmpty_iff.1 he]
    · rw [List.flatten_cons, ih (l.drop length) (by simp only [List.length_drop]; omega),
        List.take_append_drop]

theorem flatten_map_short_perm (before : α → α → Bool) (ls : List (List α)) :
    (ls.map (short before)).flatten.Perm ls.flatten := by
  induction ls with
  | nil => exact .refl _
  | cons l ls ih => exact (short_perm before l).append ih

theorem flatten_mergePairs_perm (before : α → α → Bool) (ls : List (List α)) :
    (mergePairs before ls).flatten.Perm ls.flatten := by
  fun_induction mergePairs before ls with
  | case1 a b rest ih =>
    simpa [List.append_assoc] using (merge_perm before a b).append ih
  | case2 => exact .refl _

theorem half_perm (before : α → α → Bool) (l : List α) : (half before l).Perm l := by
  have h (n : Nat) (ls : List (List α)) :
      (Nat.repeat (mergePairs before) n ls).flatten.Perm ls.flatten := by
    induction n with
    | zero => exact .refl _
    | succ n ih => exact (flatten_mergePairs_perm before _).trans ih
  have hp := flatten_map_short_perm before (pieces 7 l.length l)
  rw [flatten_pieces (by decide) l.length l (Nat.le_refl _)] at hp
  exact (h l.length _).trans hp

/-- A ranked list has the items of the list, each as often as before. -/
theorem rank_perm (before : α → α → Bool) (l : List α) : (rank before l).Perm l := by
  have hs := (half_perm before (l.take ((l.length + 1) / 2))).append
    (half_perm before (l.drop ((l.length + 1) / 2)))
  rw [List.take_append_drop] at hs
  simp only [rank]
  split
  · exact (merge_perm before _ _).trans hs
  · refine (List.reverse_perm _).trans ((mergeFromEnd_perm before _ _).trans ?_)
    exact ((List.reverse_perm _).append (List.reverse_perm _)).trans hs

end Patchbay.Ranking
