import Patchbay.Graph.Grouping
/-!
# Layout of groups

A layout knows how large nodes are. It makes groups around nodes, keeps the bounds of groups
in agreement with the places of their members, and moves groups with what lies in them.
-/
namespace Patchbay

/-- How large nodes are: as measured, or all of one size. -/
structure Layout where
  measure : Option (Node → Size Float) := none
  nodeSize : Size Float := ⟨120, 60⟩

namespace Layout

/-- Take the node size that settings ask for. A width is taken even if the height cannot be
read. -/
def configure (l : Layout) (s : Settings) : Except SettingsError Unit × Layout :=
  match s.getDouble "default_node_width" l.nodeSize.width with
  | .error e => (.error e, l)
  | .ok width =>
    match s.getDouble "default_node_height" l.nodeSize.height with
    | .error e => (.error e, { l with nodeSize := { l.nodeSize with width } })
    | .ok height => (.ok (), { l with nodeSize := ⟨width, height⟩ })

/-- The size of a node. -/
def sizeOf (l : Layout) (n : Node) : Size Float :=
  match l.measure with
  | some measure => measure n
  | none => l.nodeSize

/-- The rectangle that a node covers. -/
def nodeRect (l : Layout) (n : Node) : Rect Float := .place n.position (l.sizeOf n)

/-- The rectangle around some nodes. -/
def boundsOf (l : Layout) (g : Graph) (ks : List NodeKey) (padding : Float) : Rect Float :=
  .bounding ((ks.filterMap g.node?).map l.nodeRect) padding

/-- Change the bounds of a group. -/
def setBounds (g : Graph) (a : GroupKey) (f : Rect Float → Rect Float) : Graph :=
  g.modifyGroup a fun b => { b with bounds := f b.bounds }

/-- Make a group, as a root or as the last child of a group of the graph. -/
def createGroup (g : Graph) (name : String) (bounds : Rect Float) (parent : Option GroupKey) :
    Option GroupKey × Graph :=
  let make : GroupKey × Graph := g.newGroup name bounds
  match parent with
  | none => (some make.1, make.2.registerGroup make.1)
  | some p =>
    if g.ownsGroup p then (some make.1, (make.2.adoptGroup p (some make.1)).2) else (none, g)

/-- Let the bounds of a group fit all nodes in it; a group without nodes keeps its bounds. -/
def fit (l : Layout) (g : Graph) (a : GroupKey) (padding : Float) : Graph :=
  match ((g.tree? a).map (·.members)).getD [] with
  | [] => g
  | ks => setBounds g a fun _ => l.boundsOf g ks padding

/-- Let the bounds of a group grow around a node. -/
def expandAround (l : Layout) (g : Graph) (a : GroupKey) (k : NodeKey) (padding : Float) :
    Graph :=
  match g.node? k with
  | some n => setBounds g a fun b => b.expandToInclude (l.nodeRect n) padding
  | none => g

/-- Make a member of the graph a member of a group of the graph. -/
def addNode (l : Layout) (g : Graph) (k : NodeKey) (a : GroupKey) (adjust : Bool)
    (padding : Float) : Bool × Graph :=
  match g.moveNodeToGroup k (some a) with
  | (true, g) => (true, if adjust then l.expandAround g a k padding else g)
  | (false, g) => (false, g)

/-- Take a node out of the group that it is in. -/
def removeNode (g : Graph) (k : NodeKey) (a : GroupKey) : Bool × Graph :=
  if ((g.node? k).bind (·.group)) = some a then g.moveNodeToGroup k none else (false, g)

/-- The nodes of a list in the order in which they first occur. Some places of the list may hold no
node. -/
def listed (ks : List (Option NodeKey)) : List NodeKey :=
  (ks.filterMap id).eraseDups

/-- Make a group around the nodes of a list. -/
def createGroupAround (l : Layout) (g : Graph) (name : String) (ks : List (Option NodeKey))
    (padding : Float) (parent : Option GroupKey) : Option GroupKey × Graph :=
  let ks := listed ks
  match createGroup g name (l.boundsOf g ks padding) parent with
  | (none, g) => (none, g)
  | (some a, g) =>
    let g := ks.foldl (fun g k => (l.addNode g k a false 0).2) g
    (some a, l.fit g a padding)

/-- Move a group, and its members too if asked. -/
def moveOne (dx dy : Float) (withNodes : Bool) (g : Graph) (a : Group) : Graph :=
  let g := setBounds g a.key (·.translate dx dy)
  if withNodes then
    a.members.foldl (fun g k =>
      g.modifyNode k fun n => { n with position := n.position.translate dx dy }) g
  else g

/-- Move a group, with its members and with its descendants if asked. -/
def moveGroup (g : Graph) (a : GroupKey) (dx dy : Float) (withNodes withChildren : Bool) :
    Graph :=
  match g.tree? a with
  | none => g
  | some t =>
    let moving := if withChildren then t.preorder else [t.root]
    moving.foldl (moveOne dx dy withNodes) g

/-- Does a node lie inside the bounds of a group, which may be exceeded by a tolerance? -/
def isInside (l : Layout) (a : Group) (n : Node) (tolerance : Float) : Bool :=
  let bounds := a.bounds.inflate tolerance
  bounds.intersects (l.nodeRect n) && bounds.contains (l.nodeRect n)

/-- Where a node goes in a group that is wanted at a place, and the group afterwards. -/
def constrain (l : Layout) (g : Graph) (a : GroupKey) (k : NodeKey) (wanted : Point Float)
    (grow : Bool) (padding : Float) : Point Float × Graph :=
  match g.group? a, g.node? k with
  | some b, some n =>
    let (p, bounds) := b.bounds.accommodate (l.sizeOf n) wanted grow padding
    (p, setBounds g a fun _ => bounds)
  | _, _ => (wanted, g)

end Layout
end Patchbay
