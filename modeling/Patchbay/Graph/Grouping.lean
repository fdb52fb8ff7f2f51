import Patchbay.Graph.Members
/-!
# Grouping nodes

A node is in at most one group, which lists it among its members. Groups of the graph form
its forest; groups beside the graph form a second one and become part of the first when they
are registered. Destroying a group destroys its descendants and ungroups their members.
-/
namespace Patchbay.Graph

/-- Put a group beside the graph. -/
def newGroup (g : Graph) (name : String) (bounds : Rect Float) : GroupKey × Graph :=
  let (id, g) := g.freshId
  let a : Group := { key := g.nextGroup, id, name, bounds }
  (a.key, { g with nextGroup := g.nextGroup + 1, loose := g.loose.plant ⟨a, .nil⟩ })

/-- Make a node a member of a group, and of no other. -/
def joinGroup (g : Graph) (a : GroupKey) (k : NodeKey) : Graph :=
  if ((g.node? k).bind (·.group)) = some a then g
  else
    let g := g.leaveAnyGroup k
    let id := (g.group? a).map (·.id)
    let g := g.modifyGroup a fun b => { b with members := b.members ++ [k] }
    g.modifyNode k fun n => { n with group := some a, groupId := id }

/-- Give a group an id, which its members keep as well. -/
def setGroupId (g : Graph) (a : GroupKey) (id : String) : Graph :=
  let members := ((g.group? a).map (·.members)).getD []
  members.foldl (fun g k => g.modifyNode k fun n => { n with groupId := some id })
    (g.modifyGroup a fun b => { b with id })

/-- Ungroup the members of a group. -/
def clearGroup (g : Graph) (a : GroupKey) : Graph :=
  let members := ((g.group? a).map (·.members)).getD []
  let g := members.foldl (fun g k => g.modifyNode k fun n =>
    if n.group = some a then { n with group := none, groupId := none } else n) g
  g.modifyGroup a fun b => { b with members := [] }

/-- Ungroup the members of every group of a tree. -/
def clearTree (g : Graph) (t : Tree) : Graph :=
  t.preorder.foldl (fun g a => g.clearGroup a.key) g

/-- Make a loose group, with its descendants, a root of the graph's forest. -/
def registerGroup (g : Graph) (a : GroupKey) : Graph :=
  match g.loose.detach? a with
  | some (t, loose) => { g with loose, groups := g.groups.plant t }
  | none => g

/-- Destroy a group of the graph with its descendants. -/
def removeGroup (g : Graph) (a : GroupKey) : Bool × Graph :=
  match g.groups.tree? a with
  | none => (false, g)
  | some t =>
    let g := g.clearTree t
    match g.groups.detach? a with
    | some (_, groups) => (true, { g with groups })
    | none => (true, g)

/-- Destroy a loose group with its descendants. -/
def dropGroup (g : Graph) (a : GroupKey) : Graph :=
  match g.loose.tree? a with
  | none => g
  | some t =>
    let g := g.clearTree t
    match g.loose.detach? a with
    | some (_, loose) => { g with loose }
    | none => g

/-- Destroy everything that belongs to the graph. What lies loose beside it stays. -/
def discard (g : Graph) : Graph :=
  let g := g.links.foldl (fun g w => (g.removeWire w).2) g
  let g := g.groups.preorder.foldl (fun g a => g.clearGroup a.key) g
  let g := g.members.foldl dropNode { g with groups := .nil }
  { g with members := [], index := .empty, links := [], mainId := none }

/-- Put a member of the graph into a group of the graph, or into none. -/
def moveNodeToGroup (g : Graph) (k : NodeKey) (a : Option GroupKey) : Bool × Graph :=
  if g.contains k then
    match a with
    | none => (true, (g.leaveAnyGroup k).modifyNode k fun n => { n with groupId := none })
    | some a => if g.ownsGroup a then (true, g.joinGroup a k) else (false, g)
  else (false, g)

/-- Why a group cannot become a child of another one. -/
inductive AdoptionError where
  | nothing
  /-- The group is the parent itself or one of its ancestors. -/
  | cyclic (name : String)
  deriving DecidableEq, Repr

/-- The wording of a refused adoption. -/
def AdoptionError.message (e : AdoptionError) : String :=
  Text.untilNul <| match e with
    | .nothing => "Cannot add a null child group"
    | .cyclic name =>
      "Group '" ++ name ++ "' cannot become a child of itself or its descendant"

/-- The forest of a group: the graph's or the one beside it. -/
def descends (g : Graph) (a above : GroupKey) : Bool :=
  g.groups.descends a above || g.loose.descends a above

/-- The parent of a group. -/
def parent? (g : Graph) (a : GroupKey) : Option Group :=
  (g.groups.parent? a).or (g.loose.parent? a)

/-- Make a loose group the last child of another group. A group that would become its own
ancestor is destroyed instead. -/
def adoptGroup (g : Graph) (parent : GroupKey) (child : Option GroupKey) :
    Except AdoptionError GroupKey × Graph :=
  match child.bind fun c => (g.loose.tree? c) with
  | none => (.error .nothing, g)
  | some t =>
    let c := t.root.key
    if c = parent ∨ g.descends parent c then (.error (.cyclic t.root.name), g.dropGroup c)
    else
      match g.loose.detach? c with
      | some (t, loose) =>
        (.ok c, { g with loose := loose.adopt parent t, groups := g.groups.adopt parent t })
      | none => (.error .nothing, g)

/-- Take a child out of a group and put it beside the graph. -/
def releaseGroup (g : Graph) (parent child : GroupKey) : Bool × Graph :=
  if (g.parent? child).any fun (b : Group) => b.key = parent then
    match g.groups.detach? child with
    | some (t, groups) => (true, { g with groups, loose := g.loose.plant t })
    | none =>
      match g.loose.detach? child with
      | some (t, loose) => (true, { g with loose := loose.plant t })
      | none => (false, g)
  else (false, g)

/-- May a group of the graph become a child of another one, or a root? -/
def canReparent (g : Graph) (a : GroupKey) (parent : Option GroupKey) : Bool :=
  g.ownsGroup a &&
    (match parent with
      | none => true
      | some p => g.ownsGroup p && p ≠ a && !g.groups.descends p a)

/-- Move a group of the graph, with its descendants, to the end of the children of another
group or of the roots. -/
def reparentGroup (g : Graph) (a : GroupKey) (parent : Option GroupKey) : Bool × Graph :=
  if g.canReparent a parent then
    if (g.groups.parent? a).map (·.key) = parent then (true, g)
    else
      match g.groups.detach? a with
      | some (t, groups) =>
        match parent with
        | some p => (true, { g with groups := groups.adopt p t })
        | none => (true, { g with groups := groups.plant t })
      | none => (true, g)
  else (false, g)

/-- All groups of the graph, parents before children. -/
def allGroups (g : Graph) : List Group := g.groups.preorder

/-- A group that the graph does not own cannot be removed. -/
theorem removeGroup_of_not_owned {g : Graph} {a : GroupKey} (h : g.groups.tree? a = none) :
    g.removeGroup a = (false, g) := by
  simp [removeGroup, h]

/-- A refused move of a group leaves the graph as it is. -/
theorem reparentGroup_of_refused {g : Graph} {a : GroupKey} {parent : Option GroupKey}
    (h : g.canReparent a parent = false) : g.reparentGroup a parent = (false, g) := by
  simp [reparentGroup, h]

end Patchbay.Graph
