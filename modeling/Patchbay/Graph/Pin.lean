import Patchbay.Value
/-!
# Pins

A pin is a place of a node at which wires end. Flow pins pass control on and carry no
value; data pins hold one. An input pin remembers the one wire that feeds it, an output pin
the wires that leave it.
-/
namespace Patchbay

/-- The name of a live node. -/
abbrev NodeKey := Nat

/-- The name of a live wire. -/
abbrev WireKey := Nat

/-- The name of a live group. -/
abbrev GroupKey := Nat

/-- The two sides of a node. -/
inductive Side where
  | input
  | output
  deriving DecidableEq, Repr

/-- A pin of a node, by its side and its place on that side. -/
structure PinRef where
  node : NodeKey
  side : Side
  index : Nat
  deriving DecidableEq, Repr

/-- A connection point of a node. -/
structure Pin where
  id : String
  name : String
  type : ValueType
  flow : Bool
  value : Value
  /-- The value that the pin falls back to. -/
  initial : Value
  /-- Has the pin lost the link to its node? -/
  orphan : Bool := false
  /-- The wire that feeds this input. -/
  incoming : Option WireKey := none
  /-- The wires that leave this output, in the order of their registration. -/
  outgoing : List WireKey := []
  deriving DecidableEq

/-- What a node type says about one of its pins. -/
structure PinSpec where
  name : String
  type : ValueType
  flow : Bool
  initial : Value
  deriving DecidableEq

namespace PinSpec

/-- A flow pin. -/
def control (name : String) : PinSpec := ⟨name, .any, true, .null⟩

/-- A data pin with an initial value. -/
def data (name : String) (type : ValueType) (initial : Value := .null) : PinSpec :=
  ⟨name, type, false, initial⟩

/-- The pin of a specification. Flow pins hold nothing. -/
def pin (s : PinSpec) (id : String) : Pin :=
  let value := if s.flow then .null else s.initial
  { id, name := s.name, type := s.type, flow := s.flow, value, initial := value }

end PinSpec

namespace Pin

/-- No wire ends at a pin, and it has not lost its node. -/
structure Free (p : Pin) : Prop where
  owned : p.orphan = false
  incoming : p.incoming = none
  outgoing : p.outgoing = []

/-- The pin with another value; a flow pin takes none. -/
def assign (p : Pin) (v : Value) : Pin := if p.flow then p else { p with value := v }

/-- The pin with its value back at the initial one. -/
def reset (p : Pin) : Pin := { p with value := p.initial }

/-- Does any wire end here? -/
def isConnected (p : Pin) : Bool := p.incoming.isSome || !p.outgoing.isEmpty

/-- The pin with a wire attached on a side: an input takes it in place of the one before,
an output takes it as its last one unless it has it already. -/
def attach (p : Pin) (side : Side) (w : WireKey) : Pin :=
  match side with
  | .input => { p with incoming := some w }
  | .output => if w ∈ p.outgoing then p else { p with outgoing := p.outgoing ++ [w] }

/-- The pin without a wire on a side. -/
def detach (p : Pin) (side : Side) (w : WireKey) : Pin :=
  match side with
  | .input => if p.incoming = some w then { p with incoming := none } else p
  | .output => { p with outgoing := p.outgoing.filter (· ≠ w) }

@[simp] theorem value_assign_of_flow {p : Pin} (h : p.flow = true) (v : Value) :
    (p.assign v).value = p.value := by
  simp [assign, h]

@[simp] theorem value_assign_of_data {p : Pin} (h : p.flow = false) (v : Value) :
    (p.assign v).value = v := by
  simp [assign, h]

@[simp] theorem id_assign (p : Pin) (v : Value) : (p.assign v).id = p.id := by
  simp only [assign]; split <;> rfl

@[simp] theorem incoming_attach_input (p : Pin) (w : WireKey) :
    (p.attach .input w).incoming = some w := rfl

theorem mem_outgoing_attach (p : Pin) (w : WireKey) : w ∈ (p.attach .output w).outgoing := by
  simp only [attach]
  split
  · assumption
  · simp

theorem not_mem_outgoing_detach (p : Pin) (w : WireKey) :
    w ∉ (p.detach .output w).outgoing := by
  simp [detach]

end Pin

/-- The pins with new values in order; pins beyond the values keep theirs. -/
def assignAll : List Pin → List Value → List Pin
  | p :: ps, v :: vs => p.assign v :: assignAll ps vs
  | ps, _ => ps

@[simp] theorem length_assignAll (ps : List Pin) (vs : List Value) :
    (assignAll ps vs).length = ps.length := by
  induction ps generalizing vs with
  | nil => cases vs <;> rfl
  | cons p ps ih => cases vs <;> simp [assignAll, ih]

end Patchbay
