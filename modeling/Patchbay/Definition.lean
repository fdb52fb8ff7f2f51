import Patchbay.Graph.Node
/-!
# Node types

A definition describes a type of nodes: its name and category, its pins in order and what
its nodes do. Definitions are built up from an empty one, pin by pin.
-/
namespace Patchbay

/-- The description of a node type. -/
structure Definition where
  name : String
  category : String
  description : String := ""
  inputs : List PinSpec := []
  outputs : List PinSpec := []
  behaviour : Behaviour := pure ()

namespace Definition

/-- The definition with a data input after the others. -/
def input (d : Definition) (name : String) (type : ValueType) (initial : Value := .null) :
    Definition :=
  { d with inputs := d.inputs ++ [.data name type initial] }

/-- The definition with a data output after the others. -/
def output (d : Definition) (name : String) (type : ValueType) (initial : Value := .null) :
    Definition :=
  { d with outputs := d.outputs ++ [.data name type initial] }

/-- The definition with a flow input after the other inputs. -/
def flowInput (d : Definition) (name : String := "in") : Definition :=
  { d with inputs := d.inputs ++ [.control name] }

/-- The definition with a flow output after the other outputs. -/
def flowOutput (d : Definition) (name : String := "out") : Definition :=
  { d with outputs := d.outputs ++ [.control name] }

/-- The definition with a description. -/
def describe (d : Definition) (text : String) : Definition := { d with description := text }

/-- The definition with a behaviour. -/
def onStep (d : Definition) (b : Behaviour) : Definition := { d with behaviour := b }

/-- The first input of a name. -/
def findInput? (d : Definition) (name : String) : Option PinSpec :=
  d.inputs.find? (fun p => p.name = name)

/-- The first output of a name. -/
def findOutput? (d : Definition) (name : String) : Option PinSpec :=
  d.outputs.find? (fun p => p.name = name)

/-- A node of the type, with fresh ids. -/
def make (d : Definition) (ids : IdSupply) : Node × IdSupply :=
  let (id, ids) := ids.fresh
  let (inputs, ids) := Node.makePins d.inputs ids
  let (outputs, ids) := Node.makePins d.outputs ids
  ({ id, type := d.name, name := d.name, inputs, outputs, behaviour := d.behaviour }, ids)

@[simp] theorem type_make (d : Definition) (ids : IdSupply) : (d.make ids).1.type = d.name := rfl

@[simp] theorem name_make (d : Definition) (ids : IdSupply) : (d.make ids).1.name = d.name := rfl

/-- A definition makes fresh nodes. -/
theorem fresh_make (d : Definition) (ids : IdSupply) : (d.make ids).1.Fresh := by
  refine ⟨fun s p hp => ?_, rfl, rfl⟩
  cases s <;> exact Node.free_of_mem_makePins hp

end Definition
end Patchbay
