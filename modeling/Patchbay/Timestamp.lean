import Patchbay.Numeral
/-!
# Points in time

A point in time is a number of milliseconds since the beginning of 1970 in universal time.
Its two written forms have a fixed width, so that later points have greater texts.
-/
namespace Patchbay

/-- Milliseconds since the beginning of 1970. -/
structure Timestamp where
  ms : Nat
  deriving DecidableEq, Repr, Inhabited

namespace Timestamp

/-- A day of the calendar. -/
structure Date where
  year : Nat
  month : Nat
  day : Nat
  deriving DecidableEq, Repr

/-- The date of a number of days since the beginning of 1970. Years are counted from March,
so that the leap day is the last day of a year, and in cycles of 400 years. -/
def date (days : Nat) : Date :=
  let z := days + 719468
  let cycle := z / 146097
  let inCycle := z % 146097
  let yearOfCycle := (inCycle - inCycle / 1460 + inCycle / 36524 - inCycle / 146096) / 365
  let dayOfYear := inCycle - (365 * yearOfCycle + yearOfCycle / 4 - yearOfCycle / 100)
  let m := (5 * dayOfYear + 2) / 153
  let year := yearOfCycle + cycle * 400
  { year := if m < 10 then year else year + 1
    month := if m < 10 then m + 3 else m - 9
    day := dayOfYear - (153 * m + 2) / 5 + 1 }

/-- The last `width` digits of a number. -/
def pad : Nat → Nat → List Char
  | 0, _ => []
  | width + 1, n => pad width (n / 10) ++ [Nat.digitChar (n % 10)]

/-- The date of a point in time, with dashes. -/
def dateText (t : Timestamp) : List Char :=
  let d := date (t.ms / 86400000)
  pad 4 d.year ++ '-' :: pad 2 d.month ++ '-' :: pad 2 d.day

/-- The time of day of a point in time, to the millisecond. -/
def timeText (t : Timestamp) : List Char :=
  let s := t.ms / 1000
  pad 2 (s / 3600 % 24) ++ ':' :: pad 2 (s / 60 % 60) ++ ':' :: pad 2 (s % 60) ++
    '.' :: pad 3 (t.ms % 1000)

/-- The form that catalogues keep. -/
def utc (t : Timestamp) : String :=
  String.ofList (t.dateText ++ 'T' :: t.timeText ++ ['Z'])

/-- The form in front of journal lines. -/
def plain (t : Timestamp) : String := String.ofList (t.dateText ++ ' ' :: t.timeText)

/-- The point in time some milliseconds later. -/
def later (t : Timestamp) (ms : Nat) : Timestamp := ⟨t.ms + ms⟩

/-- Does a text have the form that catalogues keep? -/
def isUtc (s : String) : Bool :=
  let shape := "0000-00-00T00:00:00.000Z".toList
  let fits (c d : Char) : Bool := if d = '0' then c.isDigit else c = d
  s.toList.length = shape.length && (s.toList.zip shape).all fun (c, d) => fits c d

@[simp] theorem length_pad (width n : Nat) : (pad width n).length = width := by
  induction width generalizing n with
  | zero => rfl
  | succ width ih => simp [pad, ih]

end Timestamp
end Patchbay
