import Patchbay.Document.Value
import Patchbay.Graph.Basic
/-!
# Results of runs

A run that could begin ends with a result, whatever went wrong on the way: the evaluations
in their order, the failures with the paths that led to them, and the values that reached
the ends of a data flow. A run that cannot be made at all ends with an error.
-/
namespace Patchbay.Run

/-- How a run ended. -/
inductive Status where
  | completed
  | cancelled
  | failed
  deriving DecidableEq, Repr, Inhabited

namespace Status

/-- All ways to end, in declaration order. -/
def all : List Status := [completed, cancelled, failed]

/-- The name of a way to end. -/
def label : Status → String
  | completed => "completed"
  | cancelled => "cancelled"
  | failed => "failed"

end Status

/-- A node that failed, the ids of the nodes that led to it with its own id last, and the
reason. -/
structure Failure where
  nodeId : String
  path : List String
  message : String
  deriving DecidableEq, Repr

/-- What came out of a run. -/
structure Result where
  category : Category
  status : Status
  /-- The ids of the evaluated nodes, in the order of their evaluation. -/
  executed : List String := []
  steps : Nat := 0
  limitReached : Bool := false
  failures : List Failure := []
  /-- The values at the ends of a data flow, by node id and pin name. -/
  sinks : Dict (Dict Value) := .empty

/-- Why a run cannot be made. -/
inductive Error where
  | wrongCategory (graph : String) (wanted : Category)
  | noMain (graph : String)
  /-- The main node is not a member. -/
  | mainMissing (graph node : String)
  /-- Control cannot begin at the main node. -/
  | mainUnsuitable (node : String)
  /-- The nodes wait for each other's values. -/
  | cyclic (ids : List String)
  deriving DecidableEq, Repr

/-- The complaint about nodes that wait for each other. -/
def cyclicMessage (ids : List String) : String :=
  Text.untilNul ("Cyclic dependency detected, blocked nodes:" ++
    String.join (ids.map (" " ++ ·)))

/-- The wording of a run error. -/
def Error.message (e : Error) : String :=
  Text.untilNul <| match e with
    | .wrongCategory graph .controlFlow => "Graph '" ++ graph ++ "' is not a control-flow graph"
    | .wrongCategory graph .dataFlow => "Graph '" ++ graph ++ "' is not a data-flow graph"
    | .noMain graph => "Graph '" ++ graph ++ "' has no main node"
    | .mainMissing graph node => "Main node " ++ node ++ " is not part of graph '" ++ graph ++ "'"
    | .mainUnsuitable node =>
      "Main node " ++ node ++ " must have no flow inputs and at least one flow output"
    | .cyclic ids => cyclicMessage ids

/-- The document of a failure. -/
def Failure.toJson (f : Failure) : Json :=
  .ofMembers [("node_id", .string f.nodeId), ("path", .array (f.path.map .string)),
    ("message", .string f.message)]

namespace Result

/-- Did the run complete? -/
def succeeded (r : Result) : Bool := r.status = .completed

/-- The failures, one line each. -/
def errors (r : Result) : List String := r.failures.map fun f => f.nodeId ++ ": " ++ f.message

/-- The status of a run from whether it was cancelled and whether anything failed. -/
def statusOf (cancelled failed : Bool) : Status :=
  if cancelled then .cancelled else if failed then .failed else .completed

/-- The document of a result. -/
def toJson (r : Result) : Json :=
  .ofMembers [
    ("category", .string r.category.label),
    ("status", .string r.status.label),
    ("executed_node_ids", .array (r.executed.map .string)),
    ("step_count", .ofNat r.steps),
    ("step_limit_reached", .bool r.limitReached),
    ("failures", .array (r.failures.map Failure.toJson)),
    ("sink_outputs", .object (r.sinks.entries.map fun (id, values) =>
      (id, .object (values.entries.map fun (name, v) => (name, Document.ofValue v)))))]

end Result
end Patchbay.Run
