import Patchbay.Graph.Members
import Patchbay.Run.Options
import Patchbay.Run.State
/-!
# Running control flow

Control begins at the main node and goes on from every node to the nodes at its exercised
flow outputs, the whole branch of one before the next. A node that is about to be evaluated
first pulls the values of its data inputs: nodes without flow pins are evaluated for that on
the way, again each time.

The turns still to be taken form a stack. A turn is one evaluation of a node with flow pins,
together with the pulling before it.
-/
namespace Patchbay.Run

/-! ### Pulling values -/

/-- Why a turn fails. -/
inductive TurnFault where
  /-- The evaluation of the node itself fails. -/
  | own (e : Fault)
  /-- The evaluation of a pulled node fails, below other pulled nodes. -/
  | pulled (above : List String) (id message : String)
  /-- Pulled nodes wait for each other's values. -/
  | cyclic (ids : List String)
  deriving DecidableEq

/-- The wording of a failed turn. -/
def TurnFault.message : TurnFault → String
  | .own e => e.message
  | .pulled _ _ message => message
  | .cyclic ids => cyclicMessage ids

/-- The fault seen from a pulled node that pulls itself. -/
def TurnFault.below (id : String) : TurnFault → TurnFault
  | .pulled above i message => .pulled (id :: above) i message
  | e => e

/-- A part of a turn. What it did is kept when it fails. -/
abbrev Pull := ExceptT TurnFault (StateM State)

/-- The resolved wire that feeds a pin. -/
def feeder? (g : Graph) (r : PinRef) : Option WireKey :=
  ((g.pin? r).bind (·.incoming)).filter fun w => (g.wire? w).any (·.resolved)

/-- Is the node a member without flow pins, which is evaluated when its values are needed? -/
def isPulled (g : Graph) (k : NodeKey) : Bool :=
  g.contains k && (g.node? k).any fun n => !n.hasFlow

/-- The data inputs of a node. -/
def dataInputs (g : Graph) (k : NodeKey) : List PinRef :=
  (g.pinRefs k .input).filter fun r => (g.pin? r).any fun (p : Pin) => !p.flow

/-- Bring the value of a data input up to date, by evaluating the node that it comes from if
that is one to be pulled. -/
def pullInput (evaluate : NodeKey → Pull Unit) (r : PinRef) : Pull Unit := do
  match feeder? (← get).graph r with
  | none => pure ()
  | some w =>
    match (← get).graph.sourceNode? w with
    | some k => if isPulled (← get).graph k then evaluate k
    | none => pure ()
    modify (·.transfer w)

/-- Bring the values of all data inputs of a node up to date. -/
def pullInputs (evaluate : NodeKey → Pull Unit) (k : NodeKey) : Pull Unit := do
  (dataInputs (← get).graph k).forM (pullInput evaluate)

/-- The evaluation of a node as a part of a turn. -/
def invokeTurn (watch : Stopwatch) (k : NodeKey) : Pull Unit := fun s =>
  match invoke watch k s with
  | (.ok (), s) => (.ok (), s)
  | (.error e, s) => (.error (.own e), s)

/-- Evaluate a node for its values, after the nodes that feed it. The nodes on whose behalf
that happens are `path`, and `depth` bounds how many can still be added to them: every node
on the path is another member, so that the number of members is enough. -/
def evaluatePulled (watch : Stopwatch) : Nat → List NodeKey → NodeKey → Pull Unit
  | 0, path, _ => do throw (.cyclic ((path.map (nodeId (← get).graph)).mergeSort))
  | depth + 1, path, k => do
    if k ∈ path then throw (.cyclic ((path.map (nodeId (← get).graph)).mergeSort))
    else
      let id := nodeId (← get).graph k
      (pullInputs (evaluatePulled watch depth (k :: path)) k).adapt (TurnFault.below id)
      (invokeTurn watch k).adapt fun e => .pulled [] id e.message

/-- Take a turn at a node: pull the values of its inputs and evaluate it. -/
def takeTurn (watch : Stopwatch) (k : NodeKey) : Pull Unit := do
  pullInputs (evaluatePulled watch ((← get).graph.members.length + 1) []) k
  invokeTurn watch k

/-! ### Turns -/

/-- A turn, taken or still to be taken. -/
structure Turn where
  node : NodeKey
  /-- The number of the turn that scheduled this one; none for the first turn. -/
  parent : Option Nat := none
  /-- The nodes of the turns that led to this one, the latest first. -/
  trail : List NodeKey := []
  deriving DecidableEq, Repr

/-- The ids of the nodes that led to a turn, with that of its own node last. -/
def Turn.path (t : Turn) (g : Graph) : List String :=
  (t.node :: t.trail).reverse.map (nodeId g)

/-- Control in the middle of a run. -/
structure Progress where
  state : State
  /-- The turns still to be taken, the next one first. -/
  pending : List Turn
  /-- The turns taken so far. -/
  turns : Array Turn := #[]
  failures : Array Failure := #[]

namespace Progress

/-- How often a node had a turn. -/
def visits (p : Progress) (k : NodeKey) : Nat := p.turns.countP (fun t => t.node = k)

end Progress

/-- Why no further turn is taken. -/
inductive Halt where
  | finished
  | cancelled
  | stepLimit
  | visitLimit (node : NodeKey)
  deriving DecidableEq, Repr

/-- Does control stop before the next turn? The wish to end the run comes first, then the
number of turns, then the number of visits. -/
def halt? (o : Options) (p : Progress) : Option Halt :=
  match p.pending with
  | [] => some .finished
  | t :: _ =>
    if p.state.token.requested then some .cancelled
    else if 0 < o.maxSteps ∧ o.maxSteps ≤ p.turns.size then some .stepLimit
    else if 0 < o.maxVisits ∧ o.maxVisits ≤ p.visits t.node then some (.visitLimit t.node)
    else none

/-- The members at the exercised flow outputs of a node, in the order of the outputs and of
the wires at each. -/
def successors (g : Graph) (k : NodeKey) : List NodeKey :=
  match g.node? k with
  | none => []
  | some n =>
    n.exercised.flatMap fun i =>
      (((n.pin? .output i).map (·.outgoing)).getD []).filterMap fun w =>
        (g.targetNode? w).filter g.contains

/-- The failure of a turn. -/
def failureOf (g : Graph) (t : Turn) : TurnFault → Failure
  | .pulled above id message =>
    { nodeId := id, path := t.path g ++ above ++ [id], message }
  | e => { nodeId := nodeId g t.node, path := t.path g, message := e.message }

/-- The report on a failed turn. -/
def failureReport (g : Graph) (k : NodeKey) : TurnFault → Entry
  | .pulled _ id message =>
    .error ("Data node [" ++ id ++ "] pulled by " ++ nodeTitle g k ++ " failed: " ++ message)
  | e => .error ("Node " ++ nodeTitle g k ++ " failed: " ++ e.message)

/-- Take the next turn. A failed turn schedules no other. -/
def advance (watch : Stopwatch) : Progress → Progress
  | ⟨state, [], turns, failures⟩ => ⟨state, [], turns, failures⟩
  | ⟨state, t :: pending, turns, failures⟩ =>
    let number := turns.size
    let turns := turns.push t
    match (takeTurn watch t.node).run state with
    | (.ok (), state) =>
      let next := (successors state.graph t.node).map fun k =>
        { node := k, parent := some number, trail := t.node :: t.trail }
      { state, turns, failures, pending := next ++ pending }
    | (.error e, state) =>
      { state := state.report (failureReport state.graph t.node e)
        turns, pending
        failures := failures.push (failureOf state.graph t e) }

/-- Take up to a number of turns, as long as control does not stop. -/
def advanceAll (o : Options) (watch : Stopwatch) : Nat → Progress → Progress
  | 0, p => p
  | rounds + 1, p =>
    match halt? o p with
    | some _ => p
    | none => advanceAll o watch rounds (advance watch p)

/-- The number of turns after which a limit stops control in a graph. Without any limit it
is a number that no run reaches. -/
def enoughTurns (o : Options) (g : Graph) : Nat :=
  if 0 < o.maxSteps then o.maxSteps
  else if 0 < o.maxVisits then o.maxVisits * g.nodes.next
  else Nat.pow 2 62

/-! ### Whole runs -/

/-- Why control cannot begin in a graph. -/
def controlError? (g : Graph) : Option Error :=
  if g.category ≠ .controlFlow then some (.wrongCategory g.name .controlFlow)
  else
    match g.mainId with
    | none => some (.noMain g.name)
    | some id =>
      match g.mainNode?.bind g.node? with
      | none => some (.mainMissing g.name id)
      | some n => if g.isCandidate n then none else some (.mainUnsuitable n.id)

/-- The report on the limit that stopped control. -/
def limitReport (o : Options) (g : Graph) : Halt → Option Entry
  | .stepLimit => some (.warn ("Step limit of " ++ Numeral.natText o.maxSteps ++ " reached"))
  | .visitLimit k =>
    some (.warn ("Visit limit of " ++ Numeral.natText o.maxVisits ++ " reached on node " ++
      nodeId g k))
  | _ => none

/-- The failure of the turn that a limit prevented. -/
def limitFailure (g : Graph) (t : Turn) : Failure :=
  { nodeId := nodeId g t.node, path := t.path g, message := "Step limit reached" }

/-- The result of control that stopped. -/
def controlResult (o : Options) (h : Halt) (p : Progress) : Result :=
  let limited := (limitReport o p.state.graph h).isSome
  let prevented := if limited ∧ o.failOnLimit then
    (p.pending.head?.map (limitFailure p.state.graph)).toList else []
  let failures := p.failures.toList ++ prevented
  { category := .controlFlow
    status := Result.statusOf (h = .cancelled) !failures.isEmpty
    executed := p.state.executed.toList
    steps := p.turns.size
    limitReached := limited
    failures }

/-- The report on control that begins. -/
def startReport (g : Graph) : Entry := .info ("Control-flow run started: " ++ graphTitle g)

/-- The report on control that stopped. -/
def endReport (g : Graph) (r : Result) : Entry :=
  .info ("Control-flow run " ++ r.status.label ++ ": " ++ graphTitle g ++ ", " ++
    Numeral.natText r.steps ++ " step(s)")

/-- Control from the main node on, until it stops. -/
def control (o : Options) (watch : Stopwatch) (s : State) : Progress :=
  let first := s.graph.mainNode?.toList.map fun k => { node := k : Turn }
  advanceAll o watch (enoughTurns o s.graph) { state := s, pending := first }

/-- Run control from the main node. -/
def runControl (o : Options) (watch : Stopwatch) (s : State) : Outcome :=
  match controlError? s.graph with
  | some e => ⟨.error e, s⟩
  | none =>
    let p := control o watch (s.report (startReport s.graph))
    let h := (halt? o p).getD .finished
    let result := controlResult o h p
    let s' := (limitReport o p.state.graph h).toList.foldl State.report p.state
    ⟨.ok result, s'.report (endReport s.graph result)⟩

/-! ### Facts -/

/-- A turn schedules no turn when it fails. -/
theorem pending_advance_of_error {watch : Stopwatch} {p : Progress} {t : Turn}
    {rest : List Turn} {e : TurnFault} {s : State} (h : p.pending = t :: rest)
    (hf : (takeTurn watch t.node).run p.state = (.error e, s)) :
    (advance watch p).pending = rest := by
  obtain ⟨state, _, turns, failures⟩ := p
  subst h
  simp_all [advance]

/-- Every turn taken is one more in the list of turns. -/
theorem size_turns_advance (watch : Stopwatch) (p : Progress) {t : Turn} {rest : List Turn}
    (h : p.pending = t :: rest) : (advance watch p).turns.size = p.turns.size + 1 := by
  obtain ⟨state, _, turns, failures⟩ := p
  subst h
  simp only [advance]
  split <;> simp

/-- Control without a turn to take is finished. -/
theorem halt?_of_pending_nil (o : Options) {p : Progress} (h : p.pending = []) :
    halt? o p = some .finished := by
  simp [halt?, h]

/-- Control stops at once when the end of the run is asked for. -/
theorem halt?_of_requested (o : Options) {p : Progress} {t : Turn} {rest : List Turn}
    (h : p.pending = t :: rest) (hr : p.state.token.requested = true) :
    halt? o p = some .cancelled := by
  simp [halt?, h, hr]

end Patchbay.Run
