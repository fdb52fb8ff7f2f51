import Patchbay.Dict
import Patchbay.Decimal.Layout
import Patchbay.Json.Basic
import Patchbay.Ranking
import Patchbay.Text
/-!
# Evaluation times

A profile adds up, for every type of node, how often nodes of that type were evaluated,
how often they failed and how long that took.
-/
namespace Patchbay

/-- What is known of the evaluations of one type; times are in milliseconds. -/
structure Timing where
  evaluations : Nat := 0
  failures : Nat := 0
  total : Double := .of 0
  least : Float := 0
  greatest : Float := 0

namespace Timing

/-- The time of an evaluation on average; zero before the first one. -/
def average (t : Timing) : Double :=
  if t.evaluations = 0 then .of 0 else t.total / .of (Float.ofNat t.evaluations)

/-- Count one more evaluation. -/
def add (t : Timing) (ms : Float) (failed : Bool) : Timing where
  evaluations := t.evaluations + 1
  failures := if failed then t.failures + 1 else t.failures
  total := .of ms + t.total
  least := if t.evaluations = 0 || ms < t.least then ms else t.least
  greatest := if t.greatest < ms then ms else t.greatest

/-- The document of what is known of a type. -/
def toJson (t : Timing) : Json :=
  .object [("avg_ms", .double t.average), ("evaluations", .ofNat t.evaluations),
    ("failures", .ofNat t.failures), ("max_ms", .double t.greatest),
    ("min_ms", .double t.least), ("total_ms", .double t.total)]

@[simp] theorem evaluations_add (t : Timing) (ms : Float) (failed : Bool) :
    (t.add ms failed).evaluations = t.evaluations + 1 := rfl

end Timing

/-- One evaluation: the type of the node, its time and whether it failed. -/
structure Sample where
  type : String
  ms : Float
  failed : Bool

/-- The evaluations seen so far, by type. A profile that is switched off counts nothing. -/
structure Profile where
  enabled : Bool := true
  timings : Dict Timing := .empty

namespace Profile

/-- Count one evaluation, unless the profile is switched off. -/
def record (p : Profile) (s : Sample) : Profile :=
  if p.enabled then
    let timing := ((p.timings.get? s.type).getD {}).add s.ms s.failed
    { p with timings := p.timings.insert s.type timing }
  else p

/-- Count the evaluations of some work in order. -/
def recordAll (p : Profile) (samples : List Sample) : Profile := samples.foldl record p

/-- Forget all evaluations. -/
def reset (p : Profile) : Profile := { p with timings := .empty }

/-- What is known of a type. -/
def timing? (p : Profile) (type : String) : Option Timing := p.timings.get? type

/-- The number of evaluations of all types. -/
def total (p : Profile) : Nat := p.timings.entries.foldl (fun n e => n + e.2.evaluations) 0

/-- The document of a profile. -/
def toJson (p : Profile) : Json :=
  .object (p.timings.entries.map fun (type, t) => (type, t.toJson))

/-- One row of the table: the type at the left, the rest at the right of its column. -/
def row (type evaluations failures total average greatest : String) : String :=
  Text.padRight 24 type ++ Text.padLeft 8 evaluations ++ Text.padLeft 8 failures ++
    Text.padLeft 12 total ++ Text.padLeft 10 average ++ Text.padLeft 10 greatest ++ "\n"

/-- A time in a table, with three places after the point. -/
def timeText (ms : Double) : String := String.ofList (ms.text (Decimal.fixed 3))

/-- The rows by total time, the slowest type first and equally slow types by name. -/
def ranking (p : Profile) : List (String × Timing) :=
  Ranking.rank (fun a b => b.2.total.less a.2.total) p.timings.entries

/-- The profile as a table. -/
def table (p : Profile) : String :=
  if p.timings.entries.isEmpty then "No node evaluations recorded."
  else
    row "node type" "evals" "failed" "total ms" "avg ms" "max ms" ++
      String.join (p.ranking.map fun (type, t) =>
        row type (Numeral.natText t.evaluations) (Numeral.natText t.failures) (timeText t.total)
          (timeText t.average) (timeText (.of t.greatest)))

@[simp] theorem enabled_record (p : Profile) (s : Sample) :
    (p.record s).enabled = p.enabled := by
  simp only [record]; split <;> rfl

theorem timing?_record_self (p : Profile) (s : Sample) (h : p.enabled = true) :
    (p.record s).timing? s.type = some (((p.timing? s.type).getD {}).add s.ms s.failed) := by
  simp [record, timing?, h]

theorem timing?_record_of_ne (p : Profile) (s : Sample) {type : String} (h : type ≠ s.type) :
    (p.record s).timing? type = p.timing? type := by
  simp only [record, timing?]
  split
  · exact Dict.get?_insert_of_ne _ h _
  · rfl

end Profile
end Patchbay
