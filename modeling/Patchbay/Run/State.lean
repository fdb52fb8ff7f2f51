import Patchbay.Graph.Links
import Patchbay.Profile
import Patchbay.Run.Event
import Patchbay.Run.Result
/-!
# The state of a run

A run carries the graph along with what it has done so far. Evaluating a node is the only
step that changes more than pin values: it is announced before and after, noted in the
profile and reported to the journal.
-/
namespace Patchbay.Run

/-- How long the evaluation of a number takes, in milliseconds. -/
abbrev Stopwatch := Nat → Float

/-- The wish to end a run. A token that cannot be cancelled keeps the wish without heeding
it. -/
structure Token where
  cancellable : Bool := false
  cancelled : Bool := false
  deriving DecidableEq, Repr

namespace Token

/-- Is the run to end? -/
def requested (t : Token) : Bool := t.cancellable && t.cancelled

/-- The token after a node asked for the end of the run, if it did. -/
def after (t : Token) (asked : Bool) : Token := { t with cancelled := t.cancelled || asked }

@[simp] theorem after_false (t : Token) : t.after false = t := by simp [after]

/-- A wish to end the run is never taken back. -/
theorem requested_after {t : Token} (asked : Bool) (h : t.requested = true) :
    (t.after asked).requested = true := by
  simp_all [requested, after]

end Token

/-- A graph that is being run, and what the run did so far. -/
structure State where
  graph : Graph
  profile : Profile := {}
  token : Token := {}
  /-- What the evaluations so far left behind for those to come. -/
  memory : Memory := []
  /-- The ids of the evaluated nodes. -/
  executed : Array String := #[]
  events : Array Event := #[]
  journal : Array Entry := #[]

namespace State

/-- Report to the journal. -/
def report (s : State) (e : Entry) : State := { s with journal := s.journal.push e }

/-- Announce a phase of the evaluation of a node. -/
def announce (s : State) (n : Node) (p : Phase) : State :=
  { s with events := s.events.push ⟨n.id, n.type, p⟩ }

/-- The node under a key is about to be evaluated. -/
def beginNode (s : State) (n : Node) : State :=
  let s := s.announce n .started
  let s := s.report (.debug ("Evaluating " ++ n.type ++ " [" ++ n.id ++ "]"))
  { s with executed := s.executed.push n.id }

/-- The last phase of an evaluation that took some time. -/
def lastPhase (ms : Float) : Except Fault Unit → Phase
  | .ok () => .completed ms
  | .error e => .failed ms e.message

/-- The node under a key was evaluated in some time. -/
def endNode (s : State) (k : NodeKey) (n : Node) (r : Node.Stepped) (ms : Float) : State :=
  let s := { s with
    graph := s.graph.modifyNode k fun _ => r.node
    token := s.token.after r.cancelled
    memory := r.memory
    journal := s.journal ++ r.journal.toArray
    profile := s.profile.record ⟨n.type, ms, !r.outcome.isOk⟩ }
  s.announce n (lastPhase ms r.outcome)

/-- Copy the value of a wire to its target. -/
def transfer (s : State) (w : WireKey) : State := { s with graph := s.graph.transfer w }

end State

/-- Evaluate a node once. -/
def invoke (watch : Stopwatch) (k : NodeKey) (s : State) : Except Fault Unit × State :=
  match s.graph.node? k with
  | none => (.ok (), s)
  | some n =>
    let ms := watch s.executed.size
    let r := n.step s.memory
    (r.outcome, (s.beginNode n).endNode k n r ms)

/-- The id of a node. -/
def nodeId (g : Graph) (k : NodeKey) : String := ((g.node? k).map (·.id)).getD ""

/-- The type and the id of a node, as they stand in reports. -/
def nodeTitle (g : Graph) (k : NodeKey) : String :=
  ((g.node? k).map fun n => n.type ++ " [" ++ n.id ++ "]").getD ""

/-- The name of a graph as it stands in reports. -/
def graphTitle (g : Graph) : String := "'" ++ g.name ++ "'"

/-- What a run leaves behind. -/
structure Outcome where
  result : Except Error Result
  state : State

@[simp] theorem executed_report (s : State) (e : Entry) :
    (s.report e).executed = s.executed := rfl

@[simp] theorem executed_transfer (s : State) (w : WireKey) :
    (s.transfer w).executed = s.executed := rfl

/-- Evaluating a live node adds its id to those evaluated. -/
theorem executed_invoke (watch : Stopwatch) {k : NodeKey} {s : State} {n : Node}
    (h : s.graph.node? k = some n) :
    (invoke watch k s).2.executed = s.executed.push n.id := by
  simp only [invoke, h]
  rfl

end Patchbay.Run
