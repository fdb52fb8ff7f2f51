import Patchbay.Json.Basic
import Patchbay.Settings
/-!
# Limits of a run

Control can go round in circles, so that a run is limited: in its number of steps and in how
often it visits one node. A limit of zero is no limit.
-/
namespace Patchbay.Run

/-- How far a run may go. -/
structure Options where
  maxSteps : Nat := 10000
  maxVisits : Nat := 1000
  /-- Does a run fail that reaches a limit? -/
  failOnLimit : Bool := false
  deriving DecidableEq, Repr

/-- The limits that settings ask for. -/
def Options.ofSettings (s : Settings) : Except SettingsError Options := do
  let limits : Options := {}
  let maxSteps ← s.getCount "max_steps" limits.maxSteps
  let maxVisits ← s.getCount "max_visits_per_node" limits.maxVisits
  let failOnLimit ← s.getBool "fail_on_step_limit" limits.failOnLimit
  return { maxSteps, maxVisits, failOnLimit }

/-- Limits as a document, under the names that settings have for them. -/
def Options.toJson (o : Options) : Json :=
  .ofMembers [("max_steps", .ofNat o.maxSteps),
    ("max_visits_per_node", .ofNat o.maxVisits),
    ("fail_on_step_limit", .bool o.failOnLimit)]

end Patchbay.Run
