import Patchbay.Graph.Links
import Patchbay.Journal
/-!
# Nodes and wires of a graph

Nodes enter a graph under their id and wires in the order of their registration. What leaves
the graph is destroyed, and everything that pointed at it forgets it. No operation here
fails: a request that does not apply is answered with nothing or with `false` and leaves the
graph as it is.
-/
namespace Patchbay.Graph

/-! ### Nodes -/

/-- Put a node beside the graph. -/
def newNode (g : Graph) (n : Node) : NodeKey × Graph :=
  (g.nodes.next, { g with nodes := g.nodes.push n })

/-- Let a wire forget a pin at either end. -/
def forgetPin (g : Graph) (r : PinRef) (w : WireKey) : Graph :=
  g.modifyWire w fun c =>
    { c with
      source := if c.source = some r then none else c.source
      target := if c.target = some r then none else c.target }

/-- Let the wires that a pin knows forget it. -/
def releasePin (g : Graph) (r : PinRef) : Graph :=
  match g.pin? r with
  | some p => (p.incoming.toList ++ p.outgoing).foldl (fun g w => g.forgetPin r w) g
  | none => g

/-- Take a node off the member list of a group. A node whose group this is becomes
ungrouped. -/
def leaveGroup (g : Graph) (a : GroupKey) (k : NodeKey) : Bool × Graph :=
  if (g.group? a).any fun (b : Group) => k ∈ b.members then
    let g := g.modifyGroup a fun b => { b with members := b.members.erase k }
    (true, g.modifyNode k fun n =>
      if n.group = some a then { n with group := none, groupId := none } else n)
  else (false, g)

/-- Take a node out of the group that it is in. -/
def leaveAnyGroup (g : Graph) (k : NodeKey) : Graph :=
  match (g.node? k).bind (·.group) with
  | some a => (g.leaveGroup a k).2
  | none => g

/-- End the life of a node: its group and the wires at its pins forget it. -/
def dropNode (g : Graph) (k : NodeKey) : Graph :=
  let g := g.leaveAnyGroup k
  let g := (g.pinRefs k .input ++ g.pinRefs k .output).foldl releasePin g
  { g with nodes := g.nodes.erase k }

/-- Make a loose node a member. If the graph has a member under its id, the node is
destroyed and that member is the answer. -/
def insertNode (g : Graph) (k : NodeKey) : NodeKey × Graph :=
  match g.node? k with
  | none => (k, g)
  | some n =>
    match g.nodeWithId? n.id with
    | some j => (j, g.dropNode k)
    | none => (k, { g with members := g.members ++ [k], index := g.index.insert n.id k })

/-- Does a wire end at a node, or name a pin of it? -/
def touches (g : Graph) (k : NodeKey) (w : WireKey) : Bool :=
  g.involves w k ||
    (match g.wire? w, g.node? k with
      | some c, some n => n.hasPinId c.sourceId || n.hasPinId c.targetId
      | _, _ => false)

/-- Take the wires of a graph that touch a node off their pins. -/
def disconnectTouching (g : Graph) (k : NodeKey) : Graph :=
  g.links.foldl (fun g w => if g.touches k w then g.disconnect w else g) g

/-- Destroy the wires of a graph that touch a node. -/
def dropTouching (g : Graph) (k : NodeKey) : Graph :=
  let dying := g.links.filter (g.touches k)
  let g := { g with links := g.links.filter fun w => !g.touches k w }
  dying.foldl dropWire g

/-- Destroy a member with the wires that touch it. -/
def removeNode (g : Graph) (k : NodeKey) : Bool × Graph :=
  match g.node? k with
  | none => (false, g)
  | some n =>
    if g.contains k then
      let g := (g.disconnectTouching k).dropTouching k
      let g := g.leaveAnyGroup k
      let g := if g.mainId = some n.id then { g with mainId := none } else g
      let g := { g with index := g.index.erase n.id, members := g.members.erase k }
      (true, g.dropNode k)
    else (false, g)

/-- Destroy the member under an id. -/
def removeNodeWithId (g : Graph) (id : String) : Bool × Graph :=
  match g.nodeWithId? id with
  | some k => g.removeNode k
  | none => (false, g)

/-! ### Wires -/

/-- Destroy a wire of the graph. -/
def removeWire (g : Graph) (w : WireKey) : Bool × Graph :=
  if w ∈ g.links then
    let g := g.disconnect w
    (true, { g with links := g.links.erase w }.dropWire w)
  else (false, g)

/-- Destroy the first wire of the graph with an id. -/
def removeWireWithId (g : Graph) (id : String) : Bool × Graph :=
  match g.wireWithId? id with
  | some w => g.removeWire w
  | none => (false, g)

/-- Make a loose wire a wire of the graph. If the graph has a wire with its id, the loose
wire is destroyed and that wire is the answer. -/
def insertWire (g : Graph) (w : WireKey) : WireKey × Graph :=
  match (g.wire? w).bind fun c => g.wireWithId? c.id with
  | some v => (v, g.dropWire w)
  | none => (w, { g with links := g.links ++ [w] })

/-- Why two pins are not wired together. -/
inductive Refusal where
  /-- A pin has no node. -/
  | orphaned
  /-- A node is not a member of the graph. -/
  | foreign
  /-- The first pin is no output or the second one no input. -/
  | misdirected
  /-- The pins do not go together. -/
  | unsuitable
  deriving DecidableEq, Repr

/-- The reason for which a wire from one pin to another is refused. -/
def refusal? (g : Graph) (s t : PinRef) : Option Refusal :=
  match g.owner? s, g.owner? t with
  | some a, some b =>
    if !(g.contains a && g.contains b) then some .foreign
    else if s.side ≠ .output ∨ t.side ≠ .input then some .misdirected
    else if !g.canConnect s t g.replaceInputs then some .unsuitable
    else none
  | _, _ => some .orphaned

/-- The name of a pin after the name of its node. -/
def pinTitle (g : Graph) (r : PinRef) : String :=
  ((g.node? r.node).map (·.name)).getD "" ++ "." ++ ((g.pin? r).map (·.name)).getD ""

/-- The report on a refused wire. -/
def Refusal.report (g : Graph) (s t : PinRef) : Refusal → Journal
  | .unsuitable => [.debug ("Rejected connection " ++ g.pinTitle s ++ " -> " ++ g.pinTitle t)]
  | _ => []

/-- Free an input from the wire that feeds it. -/
def freeInput (g : Graph) (t : PinRef) : Graph :=
  match (g.pin? t).bind (·.incoming) with
  | some w => if w ∈ g.links then (g.removeWire w).2 else g.disconnect w
  | none => g

/-- Wire an output to an input. An earlier wire into the input gives way. -/
def connect (g : Graph) (s t : PinRef) : Option WireKey × Graph :=
  match g.refusal? s t with
  | some _ => (none, g)
  | none =>
    let (w, g) := (g.freeInput t).joinPins s t
    (some w, { g with links := g.links ++ [w] })

/-- What `connect` reports about itself. -/
def connectReport (g : Graph) (s t : PinRef) : Journal :=
  match g.refusal? s t with
  | some r => r.report g s t
  | none => []

/-- The pins of an output name and of an input name. -/
def namedPins? (g : Graph) (a : NodeKey) (output : String) (b : NodeKey) (input : String) :
    Option (PinRef × PinRef) := do
  let i ← (← g.node? a).pinNamed? .output output
  let j ← (← g.node? b).pinNamed? .input input
  return (⟨a, .output, i⟩, ⟨b, .input, j⟩)

/-- Wire the output of a name to the input of a name. -/
def connectNamed (g : Graph) (a : NodeKey) (output : String) (b : NodeKey) (input : String) :
    Option WireKey × Graph :=
  match g.namedPins? a output b input with
  | some (s, t) => g.connect s t
  | none => (none, g)

/-- The wires of the graph that begin at a pin. -/
def wiresFrom (g : Graph) (r : PinRef) : List WireKey :=
  g.links.filter fun w => (g.wire? w).any fun (c : Wire) => c.source = some r

/-- The first wire of the graph that ends at a pin. -/
def wireTo? (g : Graph) (r : PinRef) : Option WireKey :=
  g.links.find? fun w => (g.wire? w).any fun (c : Wire) => c.target = some r

/-- The wires of the graph that begin or end at a node. -/
def wiresOf (g : Graph) (k : NodeKey) : List WireKey := g.links.filter fun w => g.involves w k

/-- Does every wire of the graph join members in a permitted way? -/
def validate (g : Graph) : Bool :=
  g.links.all fun w =>
    g.isValidWire w && (g.sourceNode? w).any g.contains && (g.targetNode? w).any g.contains

/-! ### The main node -/

/-- Can a run begin at the node? Control begins where none comes in, and data ends where
none goes out. -/
def isCandidate (g : Graph) (n : Node) : Bool :=
  match g.category with
  | .controlFlow => n.flowCount .input = 0 && 0 < n.flowCount .output
  | .dataFlow => 0 < n.dataCount .input && n.dataCount .output = 0

/-- The members at which a run can begin. -/
def candidates (g : Graph) : List NodeKey :=
  g.members.filter fun k => (g.node? k).any g.isCandidate

/-- The main node, if its id is that of a member. -/
def mainNode? (g : Graph) : Option NodeKey := g.mainId.bind g.nodeWithId?

/-- Choose the main node by its id, or none. Only a candidate can be chosen. -/
def setMain (g : Graph) (id : Option String) : Bool × Graph :=
  match id with
  | none => (true, { g with mainId := none })
  | some id =>
    if ((g.nodeWithId? id).bind g.node?).any g.isCandidate then
      (true, { g with mainId := some id })
    else (false, g)

/-! ### Facts -/

/-- A refused wire leaves the graph as it is. -/
theorem connect_of_refusal {g : Graph} {s t : PinRef} {r : Refusal}
    (h : g.refusal? s t = some r) : g.connect s t = (none, g) := by
  simp [connect, h]

/-- A node that is not a member cannot be removed. -/
theorem removeNode_of_not_contains {g : Graph} {k : NodeKey} (h : g.contains k = false) :
    g.removeNode k = (false, g) := by
  simp only [removeNode]
  split
  · rfl
  · simp [h]

/-- A wire that is not one of the graph's cannot be removed. -/
theorem removeWire_of_not_mem {g : Graph} {w : WireKey} (h : w ∉ g.links) :
    g.removeWire w = (false, g) := by
  simp [removeWire, h]

theorem setMain_none (g : Graph) : g.setMain none = (true, { g with mainId := none }) := rfl

end Patchbay.Graph
