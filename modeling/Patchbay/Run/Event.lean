import Patchbay.Json.Basic
/-!
# Events of a run

Every evaluation of a node is announced when it begins and again when it is over.
-/
namespace Patchbay.Run

/-- What is announced; times are in milliseconds. -/
inductive Phase where
  | started
  | completed (ms : Float)
  | failed (ms : Float) (message : String)
  deriving DecidableEq

namespace Phase

/-- The name of a phase. -/
def label : Phase → String
  | started => "started"
  | completed _ => "completed"
  | failed _ _ => "failed"

/-- The members of an event's document that depend on the phase. -/
def details : Phase → List (String × Json)
  | started => []
  | completed ms => [("duration_ms", .double ms)]
  | failed ms message => [("duration_ms", .double ms), ("error_message", .string message)]

end Phase

/-- One announcement. -/
structure Event where
  nodeId : String
  nodeType : String
  phase : Phase
  deriving DecidableEq

/-- The document of an event. -/
def Event.toJson (e : Event) : Json :=
  .ofMembers ([("node_id", .string e.nodeId), ("node_type", .string e.nodeType),
    ("status", .string e.phase.label)] ++ e.phase.details)

end Patchbay.Run
