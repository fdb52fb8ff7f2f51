import Mathlib.Data.String.Basic
import Patchbay.Timestamp
/-!
# Later points in time have greater texts

The written form of a point in time has a fixed width, and its parts go from the largest to the
smallest. Two such texts therefore compare like the two points in time, as long as a year has four
digits.

## Main definitions

* `Timestamp.OnClock`: a point in time that a clock of 64 bits can show.
* `Timestamp.Date.Before`: one day comes before another one.

## Main statements

* `Timestamp.before_date`: more days lead to a later date.
* `Timestamp.utc_le_utc`: the text of a point in time is not greater than that of a later one.
-/
namespace Patchbay

/-- Texts of one length in front decide before what follows. -/
theorem append_lt_append {xs ys : List Char} (hl : xs.length = ys.length) (h : xs < ys)
    (us vs : List Char) : xs ++ us < ys ++ vs := by
  induction xs generalizing ys with
  | nil =>
    obtain rfl := List.length_eq_zero_iff.1 hl.symm
    exact absurd h (List.not_lt_nil _)
  | cons x xs ih =>
    cases ys with
    | nil => cases hl
    | cons y ys =>
      rw [List.cons_append, List.cons_append, List.cons_lt_cons_iff]
      rw [List.cons_lt_cons_iff] at h
      exact h.imp_right fun h => ⟨h.1, ih (Nat.succ.inj hl) h.2⟩

namespace Timestamp

/-! ### Digits -/

theorem digitChar_lt_digitChar : ∀ j < 10, ∀ i < j, Nat.digitChar i < Nat.digitChar j := by
  decide

/-- Numbers that fit compare like their digits. -/
theorem pad_lt_pad {width m n : Nat} (h : m < n) (hn : n < 10 ^ width) :
    pad width m < pad width n := by
  induction width generalizing m n with
  | zero =>
    rw [Nat.pow_zero] at hn
    omega
  | succ width ih =>
    rw [pow_succ] at hn
    by_cases hfront : m / 10 < n / 10
    · exact append_lt_append (by simp) (ih hfront (by omega)) _ _
    · have hsame : m / 10 = n / 10 := by omega
      rw [pad, pad, hsame]
      refine List.append_left_lt (List.cons_lt_cons_iff.2 (.inl ?_))
      exact digitChar_lt_digitChar _ (by omega) _ (by omega)

/-! ### Dates -/

/-- One day comes before another one. -/
def Date.Before (a b : Date) : Prop :=
  a.year < b.year ∨ a.year = b.year ∧ (a.month < b.month ∨ a.month = b.month ∧ a.day < b.day)

/-- The year of a cycle that a day of the cycle belongs to, counted from March. -/
def yearOfCycle (day : Nat) : Nat := (day - day / 1460 + day / 36524 - day / 146096) / 365

/-- The days of a cycle before one of its years. -/
def daysBefore (year : Nat) : Nat := 365 * year + year / 4 - year / 100

theorem yearOfCycle_mono {a b : Nat} (h : a ≤ b) (hb : b < 146097) :
    yearOfCycle a ≤ yearOfCycle b := by
  refine Nat.div_le_div_right ?_
  have hcentury : a / 36524 ≤ b / 36524 := Nat.div_le_div_right h
  have hleap : a - a / 1460 ≤ b - b / 1460 := by omega
  by_cases hlast : b = 146096
  · omega
  · omega

/-- A year begins right after the last day of the year before it. -/
theorem yearOfCycle_daysBefore : ∀ y < 399, yearOfCycle (daysBefore (y + 1) - 1) = y ∧
    yearOfCycle (daysBefore (y + 1)) = y + 1 := by
  decide +kernel

/-- A day belongs to its year. -/
theorem daysBefore_yearOfCycle {day : Nat} (h : day < 146097) : yearOfCycle day ≤ 399 ∧
    daysBefore (yearOfCycle day) ≤ day ∧ day < daysBefore (yearOfCycle day) + 366 := by
  have hlast : yearOfCycle day ≤ 399 := yearOfCycle_mono (Nat.le_of_lt_succ h) (by decide)
  refine ⟨hlast, ?_, ?_⟩
  · by_contra hout
    cases hy : yearOfCycle day with
    | zero => simp [hy, daysBefore] at hout
    | succ y =>
      have hend := yearOfCycle_daysBefore y (by omega)
      have hle : yearOfCycle day ≤ yearOfCycle (daysBefore (y + 1) - 1) := by
        rw [hy] at hout
        refine yearOfCycle_mono (by omega) ?_
        simp only [daysBefore]
        omega
      omega
  · by_contra hout
    by_cases hy : yearOfCycle day = 399
    · rw [hy] at hout
      simp only [daysBefore] at hout
      omega
    · have hbegin := yearOfCycle_daysBefore (yearOfCycle day) (by omega)
      have hle : yearOfCycle (daysBefore (yearOfCycle day + 1)) ≤ yearOfCycle day := by
        refine yearOfCycle_mono ?_ h
        simp only [daysBefore] at hout ⊢
        omega
      omega

/-- The year of a day, counted from March. -/
def marchYear (days : Nat) : Nat :=
  yearOfCycle ((days + 719468) % 146097) + (days + 719468) / 146097 * 400

/-- The number of a day in its year, counted from March. -/
def marchDay (days : Nat) : Nat :=
  (days + 719468) % 146097 - daysBefore (yearOfCycle ((days + 719468) % 146097))

theorem marchDay_le (days : Nat) : marchDay days ≤ 365 := by
  have h := daysBefore_yearOfCycle (Nat.mod_lt (days + 719468) (by decide : 146097 > 0))
  simp only [marchDay]
  omega

/-- Later days are in later years, or later in the same year. -/
theorem march_lt {a b : Nat} (h : a < b) :
    marchYear a < marchYear b ∨ marchYear a = marchYear b ∧ marchDay a < marchDay b := by
  have hpos : 146097 > 0 := by decide
  have ha := daysBefore_yearOfCycle (Nat.mod_lt (a + 719468) hpos)
  have hb := daysBefore_yearOfCycle (Nat.mod_lt (b + 719468) hpos)
  simp only [marchYear, marchDay]
  by_cases hcycle : (a + 719468) / 146097 < (b + 719468) / 146097
  · omega
  · have hlt : (a + 719468) % 146097 < (b + 719468) % 146097 := by omega
    have hyear := yearOfCycle_mono (Nat.le_of_lt hlt) (Nat.mod_lt _ hpos)
    by_cases hsame : yearOfCycle ((a + 719468) % 146097) = yearOfCycle ((b + 719468) % 146097)
    · rw [hsame] at ha ⊢
      omega
    · omega

/-- The date of a day, from its place in the year that is counted from March. -/
theorem date_eq (days : Nat) : date days =
    { year := if (5 * marchDay days + 2) / 153 < 10 then marchYear days else marchYear days + 1
      month := if (5 * marchDay days + 2) / 153 < 10 then (5 * marchDay days + 2) / 153 + 3
        else (5 * marchDay days + 2) / 153 - 9
      day := marchDay days - (153 * ((5 * marchDay days + 2) / 153) + 2) / 5 + 1 } := rfl

/-- More days lead to a later date. -/
theorem before_date {a b : Nat} (h : a < b) : (date a).Before (date b) := by
  have ha := marchDay_le a
  have hb := marchDay_le b
  have hlt := march_lt h
  rw [date_eq, date_eq]
  generalize marchYear a = ya at *
  generalize marchYear b = yb at *
  generalize marchDay a = da at *
  generalize marchDay b = db at *
  simp only [Date.Before]
  split <;> split <;> omega

/-- The parts of a date fit into their places. -/
theorem date_fits {days : Nat} (h : days < 2000000) :
    (date days).year < 10 ^ 4 ∧ (date days).month < 10 ^ 2 ∧ (date days).day < 10 ^ 2 := by
  have hday := marchDay_le days
  have hyear : marchYear days < 9000 := by
    have hlast := (daysBefore_yearOfCycle (Nat.mod_lt (days + 719468) (by decide : 146097 > 0))).1
    simp only [marchYear]
    omega
  rw [date_eq]
  generalize marchYear days = y at *
  generalize marchDay days = d at *
  simp only
  refine ⟨?_, ?_, ?_⟩
  · split <;> omega
  · split <;> omega
  · omega

/-! ### Texts -/

/-- A number and a mark in front decide before what follows. -/
theorem pad_append_lt {width m n : Nat} (hn : n < 10 ^ width) (c : Char) {us vs : List Char}
    (h : m < n ∨ m = n ∧ us < vs) : pad width m ++ c :: us < pad width n ++ c :: vs := by
  rcases h with h | ⟨rfl, h⟩
  · exact append_lt_append (by rw [length_pad, length_pad]) (pad_lt_pad h hn) _ _
  · exact List.append_left_lt (List.cons_lt_cons_iff.2 (.inr ⟨rfl, h⟩))

/-- Dates compare like their texts. -/
theorem dateText_lt {s t : Timestamp} (ht : t.ms / 86400000 < 2000000)
    (h : s.ms / 86400000 < t.ms / 86400000) : s.dateText < t.dateText := by
  obtain ⟨hyear, hmonth, hday⟩ := date_fits ht
  have hlt := before_date h
  simp only [dateText, List.append_assoc, List.cons_append]
  generalize date (s.ms / 86400000) = a at *
  generalize date (t.ms / 86400000) = b at *
  refine pad_append_lt hyear '-' (hlt.imp_right fun hlt => ⟨hlt.1, ?_⟩)
  exact pad_append_lt hmonth '-' (hlt.2.imp_right fun hlt => ⟨hlt.1, pad_lt_pad hlt.2 hday⟩)

/-- The hours, minutes and seconds of two points of one day. -/
theorem clock_lt {m n : Nat} (hday : m / 86400 = n / 86400) (h : m < n) :
    m / 3600 % 24 < n / 3600 % 24 ∨ m / 3600 % 24 = n / 3600 % 24 ∧
      (m / 60 % 60 < n / 60 % 60 ∨ m / 60 % 60 = n / 60 % 60 ∧ m % 60 < n % 60) := by
  have hh : m / 3600 / 24 = n / 3600 / 24 := by
    rw [Nat.div_div_eq_div_mul, Nat.div_div_eq_div_mul]
    exact hday
  by_cases hhour : m / 3600 % 24 < n / 3600 % 24
  · exact .inl hhour
  have hm : m / 3600 = n / 3600 := by omega
  refine .inr ⟨by rw [hm], ?_⟩
  by_cases hminute : m / 60 % 60 < n / 60 % 60
  · exact .inl hminute
  have hs : m / 60 = n / 60 := by omega
  exact .inr ⟨by rw [hs], by omega⟩

/-- On one day, times compare like their texts. -/
theorem timeText_lt {s t : Timestamp} (hday : s.ms / 86400000 = t.ms / 86400000)
    (h : s.ms < t.ms) : s.timeText < t.timeText := by
  have hsame : s.ms / 1000 / 86400 = t.ms / 1000 / 86400 := by
    rw [Nat.div_div_eq_div_mul, Nat.div_div_eq_div_mul]
    exact hday
  have hmilli : t.ms % 1000 < 10 ^ 3 := Nat.mod_lt _ (by decide)
  have hfit (n : Nat) : n % 24 < 10 ^ 2 ∧ n % 60 < 10 ^ 2 := by omega
  simp only [timeText, List.append_assoc, List.cons_append]
  by_cases hsecond : s.ms / 1000 < t.ms / 1000
  · have hlt := clock_lt hsame hsecond
    refine pad_append_lt (hfit _).1 ':' (hlt.imp_right fun hlt => ⟨hlt.1, ?_⟩)
    refine pad_append_lt (hfit _).2 ':' (hlt.2.imp_right fun hlt => ⟨hlt.1, ?_⟩)
    exact pad_append_lt (hfit _).2 '.' (.inl hlt.2)
  · have hsecond : s.ms / 1000 = t.ms / 1000 := by omega
    rw [hsecond]
    refine pad_append_lt (hfit _).1 ':' (.inr ⟨rfl, ?_⟩)
    refine pad_append_lt (hfit _).2 ':' (.inr ⟨rfl, ?_⟩)
    exact pad_append_lt (hfit _).2 '.' (.inr ⟨rfl, pad_lt_pad (by omega) hmilli⟩)

/-- A point in time that a clock can show that counts nanoseconds in 64 bits. -/
def OnClock (t : Timestamp) : Prop := t.ms * 1000000 < 2 ^ 63

instance (t : Timestamp) : Decidable t.OnClock := inferInstanceAs (Decidable (_ < _))

/-- The text of a point in time is less than that of a later one. -/
theorem utc_lt_utc {s t : Timestamp} (ht : t.OnClock) (h : s.ms < t.ms) : s.utc < t.utc := by
  have hdays : t.ms / 86400000 < 2000000 := by
    simp only [OnClock] at ht
    omega
  have hlength (t : Timestamp) : t.dateText.length = 10 := by simp [dateText]
  rw [String.lt_iff_toList_lt, utc, utc, String.toList_ofList, String.toList_ofList,
    List.append_assoc, List.append_assoc]
  by_cases hday : s.ms / 86400000 < t.ms / 86400000
  · exact append_lt_append ((hlength s).trans (hlength t).symm) (dateText_lt hdays hday) _ _
  · have hday : s.ms / 86400000 = t.ms / 86400000 := by omega
    have hlt := timeText_lt hday h
    have htime (t : Timestamp) : t.timeText.length = 12 := by simp [timeText]
    rw [dateText, dateText, hday]
    refine List.append_left_lt (List.cons_lt_cons_iff.2 (.inr ⟨rfl, ?_⟩))
    exact append_lt_append ((htime s).trans (htime t).symm) hlt _ _

/-- The text of a point in time is not greater than that of a later one. -/
theorem utc_le_utc {s t : Timestamp} (ht : t.OnClock) (h : s.ms ≤ t.ms) : s.utc ≤ t.utc := by
  rcases Nat.eq_or_lt_of_le h with h | h
  · have hst : s = t := by
      cases s
      cases t
      exact congrArg Timestamp.mk h
    rw [hst]
  · exact le_of_lt (utc_lt_utc ht h)

end Timestamp
end Patchbay
