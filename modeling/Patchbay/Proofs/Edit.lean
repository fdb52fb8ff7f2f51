import Patchbay.Layout
/-!
# Editing

A graph is edited by operations that follow each other in any order. What can be done to a graph
and to what lies beside it is listed here once, with what each operation asks for: a node that
is put beside the graph has no wires yet, a node that enters the graph was beside it, and a group
that takes something in is alive.

## Main definitions

* `Edit`: an operation on a graph and the parts beside it.
* `Reachable`: the graphs that editing leads to from an empty one.
-/
namespace Patchbay

/-- A node whose pins are made from specifications and have their names as ids. -/
def Node.ofSpecs (id : String) (inputs outputs : List PinSpec) (behaviour : Behaviour) : Node where
  id
  type := "t"
  name := id
  inputs := inputs.map fun p => p.pin p.name
  outputs := outputs.map fun p => p.pin p.name
  behaviour

theorem Node.fresh_ofSpecs (id : String) (inputs outputs : List PinSpec) (b : Behaviour) :
    (ofSpecs id inputs outputs b).Fresh := by
  refine ⟨?_, rfl, rfl⟩
  rintro (_ | _) p hp <;> obtain ⟨c, -, rfl⟩ := List.mem_map.1 hp <;> exact ⟨rfl, rfl, rfl⟩

/-- An operation on a graph and the parts beside it. -/
inductive Edit where
  | setId (id : String)
  | setName (name : String)
  | setCategory (category : Category)
  /-- Choose whether a new wire into a fed input takes the place of the old one. -/
  | setPolicy (replace : Bool)
  | setMain (id : Option String)
  | newNode (n : Node)
  | insertNode (k : NodeKey)
  | dropNode (k : NodeKey)
  | removeNode (k : NodeKey)
  | removeNodeWithId (id : String)
  | nameNode (k : NodeKey) (name : String)
  | placeNode (k : NodeKey) (p : Point Float)
  | enableNode (k : NodeKey) (enabled : Bool)
  | setValue (r : PinRef) (v : Value)
  | connect (s t : PinRef)
  | connectNamed (a : NodeKey) (output : String) (b : NodeKey) (input : String)
  | removeWire (w : WireKey)
  | removeWireWithId (id : String)
  | newGroup (id name : String) (bounds : Rect Float)
  | dropGroup (a : GroupKey)
  | nameGroup (a : GroupKey) (name : String)
  | setBounds (a : GroupKey) (bounds : Rect Float)
  | joinGroup (a : GroupKey) (k : NodeKey)
  | leaveGroup (a : GroupKey) (k : NodeKey)
  | clearGroup (a : GroupKey)
  | adoptGroup (parent : GroupKey) (child : Option GroupKey)
  | releaseGroup (parent child : GroupKey)
  | registerGroup (a : GroupKey)
  | removeGroup (a : GroupKey)
  | moveNodeToGroup (k : NodeKey) (a : Option GroupKey)
  | reparentGroup (a : GroupKey) (parent : Option GroupKey)
  | createGroup (name : String) (bounds : Rect Float) (parent : Option GroupKey)
  | createGroupAround (l : Layout) (name : String) (ks : List (Option NodeKey)) (padding : Float)
    (parent : Option GroupKey)
  | addToGroup (l : Layout) (k : NodeKey) (a : GroupKey) (adjust : Bool) (padding : Float)
  | removeFromGroup (k : NodeKey) (a : GroupKey)
  | moveGroup (a : GroupKey) (dx dy : Float) (withNodes withChildren : Bool)
  | fit (l : Layout) (a : GroupKey) (padding : Float)
  | expandAround (l : Layout) (a : GroupKey) (k : NodeKey) (padding : Float)
  | constrain (l : Layout) (a : GroupKey) (k : NodeKey) (wanted : Point Float) (grow : Bool)
    (padding : Float)

namespace Edit

/-- The graph after an operation. What the operation answers does not matter here. -/
def apply (g : Graph) : Edit → Graph
  | setId id => { g with id }
  | setName name => { g with name }
  | setCategory category => { g with category }
  | setPolicy replace => { g with replaceInputs := replace }
  | setMain id => (g.setMain id).2
  | newNode n => (g.newNode n).2
  | insertNode k => (g.insertNode k).2
  | dropNode k => g.dropNode k
  | removeNode k => (g.removeNode k).2
  | removeNodeWithId id => (g.removeNodeWithId id).2
  | nameNode k name => g.modifyNode k fun n => { n with name }
  | placeNode k p => g.modifyNode k fun n => { n with position := p }
  | enableNode k enabled => g.modifyNode k fun n => { n with enabled }
  | setValue r v => g.modifyPin r (·.assign v)
  | connect s t => (g.connect s t).2
  | connectNamed a output b input => (g.connectNamed a output b input).2
  | removeWire w => (g.removeWire w).2
  | removeWireWithId id => (g.removeWireWithId id).2
  | newGroup id name bounds =>
    let (a, g) := g.newGroup name bounds
    g.modifyGroup a fun b => { b with id }
  | dropGroup a => g.dropGroup a
  | nameGroup a name => g.modifyGroup a fun b => { b with name }
  | setBounds a bounds => Layout.setBounds g a fun _ => bounds
  | joinGroup a k => g.joinGroup a k
  | leaveGroup a k => (g.leaveGroup a k).2
  | clearGroup a => g.clearGroup a
  | adoptGroup parent child => (g.adoptGroup parent child).2
  | releaseGroup parent child => (g.releaseGroup parent child).2
  | registerGroup a => g.registerGroup a
  | removeGroup a => (g.removeGroup a).2
  | moveNodeToGroup k a => (g.moveNodeToGroup k a).2
  | reparentGroup a parent => (g.reparentGroup a parent).2
  | createGroup name bounds parent => (Layout.createGroup g name bounds parent).2
  | createGroupAround l name ks padding parent =>
    (l.createGroupAround g name ks padding parent).2
  | addToGroup l k a adjust padding => (l.addNode g k a adjust padding).2
  | removeFromGroup k a => (Layout.removeNode g k a).2
  | moveGroup a dx dy withNodes withChildren => Layout.moveGroup g a dx dy withNodes withChildren
  | fit l a padding => l.fit g a padding
  | expandAround l a k padding => l.expandAround g a k padding
  | constrain l a k wanted grow padding => (l.constrain g a k wanted grow padding).2

/-- What an operation asks for: nothing but parts that are there, on their side of the border
between the graph and what lies beside it. -/
def Admissible (g : Graph) : Edit → Prop
  | newNode n => n.Fresh
  | insertNode k | dropNode k => k ∉ g.members
  | joinGroup a k => (g.group? a).isSome ∧ (g.node? k).isSome
  | adoptGroup parent _ => (g.group? parent).isSome
  | _ => True

/-- Each of some operations finds what it asks for in the graph that those before it lead to. -/
def AllAdmissible (g : Graph) : List Edit → Prop
  | [] => True
  | e :: es => e.Admissible g ∧ AllAdmissible (e.apply g) es

end Edit

/-- The graphs that editing leads to from an empty one. -/
inductive Reachable : Graph → Prop where
  | new (ids : IdSupply) (name : String) (category : Category) : Reachable (.new ids name category)
  | edit {g : Graph} (hg : Reachable g) (e : Edit) (he : e.Admissible g) : Reachable (e.apply g)

theorem Reachable.edits {g : Graph} (hg : Reachable g) {es : List Edit}
    (he : Edit.AllAdmissible g es) : Reachable (es.foldl Edit.apply g) := by
  induction es generalizing g with
  | nil => exact hg
  | cons e es ih => exact ih (hg.edit e he.1) he.2

end Patchbay
