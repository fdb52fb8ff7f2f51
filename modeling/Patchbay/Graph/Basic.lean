import Patchbay.Arena
import Patchbay.Graph.Group
import Patchbay.Graph.Node
import Patchbay.Settings
/-!
# Graphs

The state of a graph consists of all live nodes, wires and groups, and of the record that
says which of them belong to the graph: its member nodes, its wires and its groups, each in
the order in which they came. What is alive without belonging to the graph lies loose
beside it and can be wired and grouped all the same.
-/
namespace Patchbay

/-- The discipline by which a graph is run. -/
inductive Category where
  | controlFlow
  | dataFlow
  deriving DecidableEq, Repr, Inhabited

namespace Category

/-- All categories, in declaration order. -/
def all : List Category := [controlFlow, dataFlow]

/-- The name of a category. -/
def label : Category → String
  | controlFlow => "control_flow"
  | dataFlow => "data_flow"

/-- The category of a name. -/
def ofLabel? (s : String) : Option Category := all.find? (fun c => c.label = s)

/-- The complaint about a name that no category has. -/
def unknownMessage (s : String) : String := Text.untilNul ("Unknown graph category: " ++ s)

@[simp] theorem ofLabel?_label (c : Category) : ofLabel? c.label = some c := by
  cases c <;> decide

end Category

/-- A directed edge between two pins. It keeps the ids of the pins beside the pins
themselves, which an edge from a document has not found yet. -/
structure Wire where
  id : String
  sourceId : String
  targetId : String
  source : Option PinRef := none
  target : Option PinRef := none
  deriving DecidableEq

namespace Wire

/-- Are both ends found? -/
def resolved (w : Wire) : Bool := w.source.isSome && w.target.isSome

end Wire

/-- A graph and the loose parts beside it. -/
structure Graph where
  nodes : Arena Node := {}
  wires : Arena Wire := {}
  /-- The key of the next group. -/
  nextGroup : GroupKey := 0
  /-- Where fresh ids come from. -/
  ids : IdSupply := {}
  id : String
  name : String := "Graph"
  category : Category := .controlFlow
  /-- Does a new wire into a fed input take the place of the old one? -/
  replaceInputs : Bool := true
  /-- The id of the node with which a run begins. -/
  mainId : Option String := none
  /-- The nodes of the graph, in the order of their insertion. -/
  members : List NodeKey := []
  /-- The member under each id that a node had when it was inserted. -/
  index : Dict NodeKey := .empty
  /-- The wires of the graph, in the order of their registration. -/
  links : List WireKey := []
  /-- The groups of the graph. -/
  groups : Forest := .nil
  /-- The groups that lie beside the graph. -/
  loose : Forest := .nil

namespace Graph

/-- An empty graph with a fresh id. -/
def new (ids : IdSupply) (name : String := "Graph") (category : Category := .controlFlow) :
    Graph :=
  let (id, ids) := ids.fresh
  { id, ids, name, category }

/-- The replacement policy that settings ask for. -/
def replacePolicy (s : Settings) : Except SettingsError Bool :=
  s.getBool "replace_input_connection_on_new" true

/-! ### Looking things up -/

/-- The node under a key. -/
def node? (g : Graph) (k : NodeKey) : Option Node := g.nodes.get? k

/-- The wire under a key. -/
def wire? (g : Graph) (k : WireKey) : Option Wire := g.wires.get? k

/-- The group under a key, in the graph or beside it. -/
def group? (g : Graph) (k : GroupKey) : Option Group := (g.groups.get? k).or (g.loose.get? k)

/-- The group under a key with its descendants, in the graph or beside it. -/
def tree? (g : Graph) (k : GroupKey) : Option Tree := (g.groups.tree? k).or (g.loose.tree? k)

/-- The pin of a reference. -/
def pin? (g : Graph) (r : PinRef) : Option Pin := (g.node? r.node).bind (·.pin? r.side r.index)

/-- The node that a pin belongs to, unless the pin has lost it. -/
def owner? (g : Graph) (r : PinRef) : Option NodeKey :=
  (g.pin? r).bind fun p => if p.orphan then none else some r.node

/-- The member under an id. -/
def nodeWithId? (g : Graph) (id : String) : Option NodeKey := g.index.get? id

/-- Is the node a member, found under its own id? -/
def contains (g : Graph) (k : NodeKey) : Bool :=
  (g.node? k).any fun n => g.nodeWithId? n.id = some k

/-- The first wire of the graph with an id. -/
def wireWithId? (g : Graph) (id : String) : Option WireKey :=
  g.links.find? fun w => (g.wire? w).any (fun c => c.id = id)

/-- The first pin of an id in a list of nodes. -/
def findPin? (g : Graph) (id : String) : List NodeKey → Option PinRef
  | [] => none
  | k :: ks =>
    match (g.node? k).bind (·.pinWithId? id) with
    | some (side, i) => some ⟨k, side, i⟩
    | none => g.findPin? id ks

/-- The first pin of an id among the members. -/
def pinWithId? (g : Graph) (id : String) : Option PinRef := g.findPin? id g.members

/-- The first group of an id in the graph, parents before children. -/
def groupWithId? (g : Graph) (id : String) : Option Group := g.groups.find? (fun a => a.id = id)

/-- Does the group belong to the graph? -/
def ownsGroup (g : Graph) (k : GroupKey) : Bool := g.groups.has k

/-- The references to the pins on a side of a node. -/
def pinRefs (g : Graph) (k : NodeKey) (side : Side) : List PinRef :=
  match g.node? k with
  | some n => (List.range (n.pins side).length).map (⟨k, side, ·⟩)
  | none => []

/-! ### Changing one part -/

/-- The graph with a node changed. -/
def modifyNode (g : Graph) (k : NodeKey) (f : Node → Node) : Graph :=
  { g with nodes := g.nodes.modify k f }

/-- The graph with a pin changed. -/
def modifyPin (g : Graph) (r : PinRef) (f : Pin → Pin) : Graph :=
  g.modifyNode r.node (·.modifyPin r.side r.index f)

/-- The graph with a wire changed. -/
def modifyWire (g : Graph) (k : WireKey) (f : Wire → Wire) : Graph :=
  { g with wires := g.wires.modify k f }

/-- The graph with a group changed, in the graph or beside it. -/
def modifyGroup (g : Graph) (k : GroupKey) (f : Group → Group) : Graph :=
  { g with groups := g.groups.modify k f, loose := g.loose.modify k f }

/-- A fresh id. -/
def freshId (g : Graph) : String × Graph :=
  let (id, ids) := g.ids.fresh
  (id, { g with ids })

theorem node?_modifyNode (g : Graph) (k j : NodeKey) (f : Node → Node) :
    (g.modifyNode k f).node? j = if k = j then (g.node? j).map f else g.node? j :=
  Arena.get?_modify _ _ _ _

theorem wire?_modifyWire (g : Graph) (k j : WireKey) (f : Wire → Wire) :
    (g.modifyWire k f).wire? j = if k = j then (g.wire? j).map f else g.wire? j :=
  Arena.get?_modify _ _ _ _

@[simp] theorem wire?_modifyNode (g : Graph) (k : NodeKey) (j : WireKey) (f : Node → Node) :
    (g.modifyNode k f).wire? j = g.wire? j := rfl

@[simp] theorem node?_modifyWire (g : Graph) (k : WireKey) (j : NodeKey) (f : Wire → Wire) :
    (g.modifyWire k f).node? j = g.node? j := rfl

end Graph
end Patchbay
