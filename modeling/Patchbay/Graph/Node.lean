import Patchbay.Geometry
import Patchbay.Identifier
import Patchbay.Step
/-!
# Nodes

A node has ordered pins on two sides and a behaviour. Evaluating it runs the behaviour
once: the data outputs take the values written, the flow outputs chosen are remembered, and
the state says how it went. A disabled node does nothing and lets every flow output pass.
-/
namespace Patchbay

/-- How the last evaluation of a node went. -/
inductive NodeState where
  | normal
  | executing
  | success
  | error
  deriving DecidableEq, Repr, Inhabited

namespace NodeState

/-- All states, in declaration order. -/
def all : List NodeState := [normal, executing, success, error]

/-- The name of a state. -/
def label : NodeState → String
  | normal => "normal"
  | executing => "executing"
  | success => "success"
  | error => "error"

end NodeState

/-- A unit of evaluation with its pins. -/
structure Node where
  id : String
  type : String
  name : String
  position : Point Float := .origin
  enabled : Bool := true
  state : NodeState := .normal
  lastError : String := ""
  inputs : List Pin
  outputs : List Pin
  /-- The group of which the node is a member. -/
  group : Option GroupKey := none
  /-- The id of that group as it is kept in documents. -/
  groupId : Option String := none
  /-- The names of the flow outputs that the last step chose; none if it chose nothing. -/
  selection : Option (List String) := none
  behaviour : Behaviour

namespace Node

/-- The pins of a side. -/
def pins (n : Node) : Side → List Pin
  | .input => n.inputs
  | .output => n.outputs

/-- The pin at a place of a side. -/
def pin? (n : Node) (side : Side) (i : Nat) : Option Pin := (n.pins side)[i]?

/-- The node with a pin changed. -/
def modifyPin (n : Node) (side : Side) (i : Nat) (f : Pin → Pin) : Node :=
  match side with
  | .input => { n with inputs := n.inputs.modify i f }
  | .output => { n with outputs := n.outputs.modify i f }

/-- The node with every pin changed. -/
def mapPins (n : Node) (f : Pin → Pin) : Node :=
  { n with inputs := n.inputs.map f, outputs := n.outputs.map f }

/-- The node with an id, to which the ids of its pins refer by side and place. -/
def withId (n : Node) (id : String) : Node :=
  let number (mark : String) (ps : List Pin) : List Pin :=
    ps.zipIdx.map fun (p, i) => { p with id := id ++ mark ++ Numeral.natText i }
  { n with id, inputs := number ".i" n.inputs, outputs := number ".o" n.outputs }

/-- The place of the first pin of a name on a side. -/
def pinNamed? (n : Node) (side : Side) (name : String) : Option Nat :=
  (n.pins side).findIdx? (fun p => p.name = name)

/-- The side and the place of the first pin of an id, inputs first. -/
def pinWithId? (n : Node) (id : String) : Option (Side × Nat) :=
  match n.inputs.findIdx? (fun p => p.id = id) with
  | some i => some (.input, i)
  | none => (n.outputs.findIdx? (fun p => p.id = id)).map (.output, ·)

/-- Does a pin of the node have the id? -/
def hasPinId (n : Node) (id : String) : Bool := (n.pinWithId? id).isSome

/-- The number of flow pins on a side. -/
def flowCount (n : Node) (side : Side) : Nat := (n.pins side).countP (·.flow)

/-- The number of data pins on a side. -/
def dataCount (n : Node) (side : Side) : Nat := (n.pins side).countP (fun p => !p.flow)

/-- Does control pass through the node? -/
def hasFlow (n : Node) : Bool := 0 < n.flowCount .input || 0 < n.flowCount .output

/-- The places of the flow outputs that the last step exercised, in declaration order: the
chosen ones, or all if it chose nothing. -/
def exercised (n : Node) : List Nat :=
  (n.outputs.zipIdx.filter fun p =>
    p.1.flow && (match n.selection with
      | none => true
      | some names => p.1.name ∈ names)).map (·.2)

/-- What a step of the node can see. -/
def view (n : Node) : StepView := ⟨n.id, n.type, n.name, n.inputs, n.outputs⟩

/-- The outcome of a step and what it did besides. -/
structure Stepped where
  node : Node
  outcome : Except Fault Unit
  journal : Journal := []
  cancelled : Bool := false
  memory : Memory := []

/-- The outcome of a step: the fault of its behaviour, or else its complaint. -/
def verdict (result : Except Fault Unit) (complaint : Option String) : Except Fault Unit :=
  match result, complaint with
  | .error e, _ => .error e
  | .ok (), some message => .error (.failed message)
  | .ok (), none => .ok ()

/-- The state after a step. -/
def stateAfter : Except Fault Unit → NodeState
  | .ok () => .success
  | .error _ => .error

/-- The message kept after a step. -/
def errorAfter : Except Fault Unit → String
  | .ok () => ""
  | .error e => e.message

/-- Run the behaviour on the current values and on what earlier steps left behind. -/
def attempt (n : Node) (memory : Memory) : Except Fault Unit × StepState :=
  n.behaviour n.view { values := n.outputs.map (·.value), memory }

/-- Evaluate the node once. -/
def step (n : Node) (memory : Memory := []) : Stepped :=
  if n.enabled then
    let r := n.attempt memory
    let outcome := verdict r.1 r.2.complaint
    { node := { n with
        outputs := assignAll n.outputs r.2.values
        selection := r.2.selection
        state := stateAfter outcome
        lastError := errorAfter outcome }
      outcome
      journal := r.2.journal
      cancelled := r.2.cancelled
      memory := r.2.memory }
  else { node := { n with selection := none, lastError := "" }, outcome := .ok (), memory }

/-- Make the pins of a list of specifications, each with a fresh id. -/
def makePins : List PinSpec → IdSupply → List Pin × IdSupply
  | [], ids => ([], ids)
  | s :: specs, ids =>
    let (id, ids) := ids.fresh
    let (pins, ids) := makePins specs ids
    (s.pin id :: pins, ids)

/-- A node as it is made: no wire ends at its pins, and it is in no group. -/
structure Fresh (n : Node) : Prop where
  pins : ∀ s, ∀ p ∈ n.pins s, p.Free
  group : n.group = none
  groupId : n.groupId = none

theorem free_of_mem_makePins {specs : List PinSpec} {ids : IdSupply} {p : Pin}
    (hp : p ∈ (makePins specs ids).1) : p.Free := by
  induction specs generalizing ids with
  | nil => cases hp
  | cons s specs ih =>
    rcases List.mem_cons.1 hp with rfl | hp
    · exact ⟨rfl, rfl, rfl⟩
    · exact ih hp

/-- A disabled node is not changed by its behaviour and never fails. -/
theorem outcome_step_of_disabled {n : Node} (h : n.enabled = false) (m : Memory) :
    (n.step m).outcome = .ok () := by
  simp [step, h]

@[simp] theorem id_step (n : Node) (m : Memory) : (n.step m).node.id = n.id := by
  simp only [step]; split <;> rfl

@[simp] theorem inputs_step (n : Node) (m : Memory) : (n.step m).node.inputs = n.inputs := by
  simp only [step]; split <;> rfl

@[simp] theorem length_outputs_step (n : Node) (m : Memory) :
    (n.step m).node.outputs.length = n.outputs.length := by
  simp only [step]; split <;> simp

end Node
end Patchbay
