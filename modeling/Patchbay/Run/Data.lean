import Patchbay.Graph.Members
import Patchbay.Run.State
/-!
# Running data flow

Every member of a data flow is evaluated once, after the members that feed it. In each round
the first member in insertion order takes part of which no data input waits for another
member; when there is none, the members left over wait for each other. A failure ends the
run.
-/
namespace Patchbay.Run

/-- A data flow in the middle of a run. -/
structure Flow where
  state : State
  /-- The members that have not been evaluated, in insertion order. -/
  waiting : List NodeKey

/-- Does a pin wait for the value of a member that has not been evaluated? -/
def pinWaits (g : Graph) (waiting : List NodeKey) (p : Pin) : Bool :=
  !p.flow && p.incoming.any fun w =>
    (g.wire? w).any (·.resolved) &&
      (g.sourceNode? w).any fun k => g.contains k && k ∈ waiting

/-- Does no data input of a node wait? -/
def isReady (g : Graph) (waiting : List NodeKey) (k : NodeKey) : Bool :=
  (g.node? k).any fun n => !n.inputs.any (pinWaits g waiting)

/-- Bring values along all wires into a node. -/
def receive (k : NodeKey) (s : State) : State :=
  let wires := (s.graph.node? k).toList.flatMap fun n => n.inputs.filterMap (·.incoming)
  wires.foldl State.transfer s

/-- Take the values of the data outputs of a node along all their wires. -/
def send (k : NodeKey) (s : State) : State :=
  let wires := (s.graph.node? k).toList.flatMap fun n =>
    (n.outputs.filter fun p => !p.flow).flatMap (·.outgoing)
  wires.foldl State.transfer s

/-- How the rounds end. -/
inductive FlowEnd where
  | completed
  | cancelled
  /-- A node failed. -/
  | failed (node : NodeKey) (e : Fault)
  /-- No node is ready. -/
  | stuck
  deriving DecidableEq

/-- Evaluate nodes, one a round, until none is left or something ends the run. There are as
many rounds as nodes. -/
def rounds (watch : Stopwatch) : Nat → Flow → FlowEnd × Flow
  | 0, f => (.completed, f)
  | n + 1, f =>
    if f.waiting.isEmpty then (.completed, f)
    else if f.state.token.requested then (.cancelled, f)
    else
      match f.waiting.find? (isReady f.state.graph f.waiting) with
      | none => (.stuck, f)
      | some k =>
        match invoke watch k (receive k f.state) with
        | (.error e, s) => (.failed k e, { f with state := s })
        | (.ok (), s) => rounds watch n { state := send k s, waiting := f.waiting.erase k }

/-- Does a data output of the node feed a member? -/
def feedsMember (g : Graph) (n : Node) : Bool :=
  n.outputs.any fun p => !p.flow && p.outgoing.any fun w => (g.targetNode? w).any g.contains

/-- The values at a node where data flow ends: those of its data outputs, or of its data
inputs if it has no data outputs. -/
def endValues (n : Node) : Dict Value :=
  let pins := if 0 < n.dataCount .output then n.outputs else n.inputs
  Dict.ofList ((pins.filter fun p => !p.flow).map fun p => (p.name, p.value))

/-- The values at the evaluated members that feed no other member. -/
def sinksOf (g : Graph) (waiting : List NodeKey) : Dict (Dict Value) :=
  let ends := ((g.members.filter (· ∉ waiting)).filterMap g.node?).filter
    fun n => !feedsMember g n && 0 < (endValues n).size
  Dict.ofList (ends.map fun n => (n.id, endValues n))

/-- Why data flow cannot be run in a graph. -/
def dataError? (g : Graph) : Option Error :=
  if g.category ≠ .dataFlow then some (.wrongCategory g.name .dataFlow)
  else
    match g.mainId with
    | none => none
    | some id => if g.mainNode?.isSome then none else some (.mainMissing g.name id)

/-- The failure that ended the rounds. -/
def flowFailure? (g : Graph) : FlowEnd → Option Failure
  | .failed k e => some { nodeId := nodeId g k, path := [nodeId g k], message := e.message }
  | _ => none

/-- What the end of the rounds has to report. -/
def flowReport? (f : Flow) : FlowEnd → Option Entry
  | .failed k e =>
    some (.error ("Node " ++ nodeTitle f.state.graph k ++ " failed: " ++ e.message))
  | .stuck =>
    some (.error ("Data-flow run blocked: " ++ Numeral.natText f.waiting.length ++
      " node(s) in a cycle"))
  | _ => none

/-- The result of rounds that ended without being stuck. -/
def dataResult (d : FlowEnd) (f : Flow) : Result :=
  let failures := (flowFailure? f.state.graph d).toList
  { category := .dataFlow
    status := Result.statusOf (d = .cancelled) !failures.isEmpty
    executed := f.state.executed.toList
    steps := f.state.executed.size
    failures
    sinks := sinksOf f.state.graph f.waiting }

/-- The report on a data flow that begins. -/
def flowStartReport (g : Graph) : Entry := .info ("Data-flow run started: " ++ graphTitle g)

/-- The report on a data flow that ended without being stuck. -/
def flowEndReport (g : Graph) (r : Result) : Entry :=
  .info ("Data-flow run " ++ r.status.label ++ ": " ++ graphTitle g ++ ", " ++
    Numeral.natText r.steps ++ " node(s) evaluated")

/-- The rounds of a data flow among all members. -/
def dataFlow (watch : Stopwatch) (s : State) : FlowEnd × Flow :=
  rounds watch s.graph.members.length { state := s, waiting := s.graph.members }

/-- Run data flow. -/
def runData (watch : Stopwatch) (s : State) : Outcome :=
  match dataError? s.graph with
  | some e => ⟨.error e, s⟩
  | none =>
    let (d, f) := dataFlow watch (s.report (flowStartReport s.graph))
    let s' := (flowReport? f d).toList.foldl State.report f.state
    match d with
    | .stuck => ⟨.error (.cyclic (f.waiting.map (nodeId s.graph))), s'⟩
    | d =>
      let result := dataResult d f
      ⟨.ok result, s'.report (flowEndReport s.graph result)⟩

/-! ### Facts -/

/-- Without waiting nodes every node is ready. -/
theorem pinWaits_nil (g : Graph) (p : Pin) : pinWaits g [] p = false := by
  simp only [pinWaits, List.not_mem_nil, decide_false, Bool.and_false, Bool.and_eq_false_imp]
  intro _
  cases p.incoming with
  | none => rfl
  | some w => cases g.sourceNode? w <;> simp

/-- A data flow without members completes. -/
theorem rounds_of_waiting_nil (watch : Stopwatch) (n : Nat) (s : State) :
    rounds watch n ⟨s, []⟩ = (.completed, ⟨s, []⟩) := by
  cases n <;> simp [rounds]

/-- A node evaluated in a round waits no longer. -/
theorem rounds_succ_of_ready {watch : Stopwatch} {n : Nat} {f : Flow} {k : NodeKey} {s : State}
    (ht : f.state.token.requested = false)
    (hk : f.waiting.find? (isReady f.state.graph f.waiting) = some k)
    (hi : invoke watch k (receive k f.state) = (.ok (), s)) :
    rounds watch (n + 1) f = rounds watch n ⟨send k s, f.waiting.erase k⟩ := by
  have hw : f.waiting.isEmpty = false := by
    cases h : f.waiting with
    | nil => simp [h] at hk
    | cons => rfl
  simp [rounds, hw, ht, hk, hi]

end Patchbay.Run
