import Patchbay.Geometry
import Patchbay.Graph.Pin
/-!
# Groups

A group is a named region with member nodes, and groups nest. A forest holds groups with
their children; a group stands in exactly one place of it, so that every group but a root
has one parent and no group is among its own descendants.
-/
namespace Patchbay

/-- A cluster of nodes with a bounding region. -/
structure Group where
  key : GroupKey
  id : String
  name : String
  bounds : Rect Float
  members : List NodeKey := []
  deriving DecidableEq

/-- Groups side by side, each with the forest of its children. -/
inductive Forest where
  | nil
  | cons (group : Group) (children rest : Forest)
  deriving DecidableEq

/-- A group with its descendants. -/
structure Tree where
  root : Group
  children : Forest
  deriving DecidableEq

namespace Forest

instance : Inhabited Forest := ⟨nil⟩

/-- Two forests side by side. -/
def append : Forest → Forest → Forest
  | nil, g => g
  | cons a cs rest, g => cons a cs (rest.append g)

/-- The forest of one tree. -/
def ofTree (t : Tree) : Forest := cons t.root t.children nil

/-- The forest with a tree as its last root. -/
def plant (f : Forest) (t : Tree) : Forest := f.append (ofTree t)

/-- All groups, parents before children. -/
def preorder : Forest → List Group
  | nil => []
  | cons a cs rest => a :: (cs.preorder ++ rest.preorder)

/-- The groups that have no parent. -/
def roots : Forest → List Group
  | nil => []
  | cons a _ rest => a :: rest.roots

/-- The first group, parents before children, that satisfies a test. -/
def find? (p : Group → Bool) : Forest → Option Group
  | nil => none
  | cons a cs rest => if p a then some a else (cs.find? p).or (rest.find? p)

/-- The group under a key. -/
def get? (f : Forest) (k : GroupKey) : Option Group := f.find? (fun a => a.key = k)

/-- Is there a group under the key? -/
def has (f : Forest) (k : GroupKey) : Bool := (f.get? k).isSome

/-- The keys of all groups, parents before children. -/
def keys (f : Forest) : List GroupKey := f.preorder.map (·.key)

/-- The group under a key with its descendants. -/
def tree? (k : GroupKey) : Forest → Option Tree
  | nil => none
  | cons a cs rest => if a.key = k then some ⟨a, cs⟩ else (tree? k cs).or (tree? k rest)

/-- Every group changed by a function. -/
def map (h : Group → Group) : Forest → Forest
  | nil => nil
  | cons a cs rest => cons (h a) (cs.map h) (rest.map h)

/-- The group under a key changed by a function. -/
def modify (f : Forest) (k : GroupKey) (h : Group → Group) : Forest :=
  f.map fun a => if a.key = k then h a else a

/-- The forest with a tree as the last child of the group under a key. -/
def adopt (k : GroupKey) (t : Tree) : Forest → Forest
  | nil => nil
  | cons a cs rest =>
    if a.key = k then cons a (cs.plant t) rest else cons a (adopt k t cs) (adopt k t rest)

/-- Take the group under a key out of the forest, with its descendants. -/
def detach? (k : GroupKey) : Forest → Option (Tree × Forest)
  | nil => none
  | cons a cs rest =>
    if a.key = k then some (⟨a, cs⟩, rest)
    else
      match detach? k cs with
      | some (t, cs) => some (t, cons a cs rest)
      | none => (detach? k rest).map fun (t, rest) => (t, cons a cs rest)

/-- The ancestors of the group under a key, the outermost first. -/
def ancestors? (k : GroupKey) : Forest → Option (List Group)
  | nil => none
  | cons a cs rest =>
    if a.key = k then some []
    else ((ancestors? k cs).map (a :: ·)).or (ancestors? k rest)

/-- The parent of the group under a key. -/
def parent? (f : Forest) (k : GroupKey) : Option Group :=
  (f.ancestors? k).bind (·.getLast?)

/-- Does the group under the first key lie below the group under the second one? -/
def descends (f : Forest) (k above : GroupKey) : Bool :=
  ((f.ancestors? k).getD []).any (fun a => a.key = above)

/-- The members of all groups, parents before children. -/
def members : Forest → List NodeKey
  | nil => []
  | cons a cs rest => a.members ++ (cs.members ++ rest.members)

/-- Is the node a member of any group? -/
def holds (n : NodeKey) : Forest → Bool
  | nil => false
  | cons a cs rest => n ∈ a.members || (cs.holds n || rest.holds n)

@[simp] theorem append_nil (f : Forest) : f.append nil = f := by
  induction f with
  | nil => rfl
  | cons a cs rest _ ih => simp [append, ih]

theorem append_assoc (f g h : Forest) : (f.append g).append h = f.append (g.append h) := by
  induction f with
  | nil => rfl
  | cons a cs rest _ ih => simp [append, ih]

@[simp] theorem preorder_append (f g : Forest) :
    (f.append g).preorder = f.preorder ++ g.preorder := by
  induction f with
  | nil => rfl
  | cons a cs rest _ ih => simp [append, preorder, ih]

@[simp] theorem preorder_ofTree (t : Tree) :
    (ofTree t).preorder = t.root :: t.children.preorder := by
  simp [ofTree, preorder]

@[simp] theorem preorder_map (h : Group → Group) (f : Forest) :
    (f.map h).preorder = f.preorder.map h := by
  induction f with
  | nil => rfl
  | cons a cs rest ihc ih => simp [map, preorder, ihc, ih]

/-- The search in a forest is the search in its list of groups. -/
theorem find?_eq (p : Group → Bool) (f : Forest) : f.find? p = f.preorder.find? p := by
  induction f with
  | nil => rfl
  | cons a cs rest ihc ih =>
    simp only [find?, preorder, List.find?_cons, List.find?_append, ihc, ih]
    cases p a <;> simp

theorem members_eq_flatMap (f : Forest) : f.members = f.preorder.flatMap (·.members) := by
  induction f with
  | nil => rfl
  | cons a cs rest ihc ih => simp [members, preorder, ihc, ih]

theorem holds_iff (n : NodeKey) (f : Forest) : f.holds n = true ↔ n ∈ f.members := by
  induction f with
  | nil => simp [holds, members]
  | cons a cs rest ihc ih => simp [holds, members, ihc, ih]

end Forest

namespace Tree

/-- The group and its descendants, parents before children. -/
def preorder (t : Tree) : List Group := t.root :: t.children.preorder

/-- The members of the group and of its descendants, parents before children. -/
def members (t : Tree) : List NodeKey := t.root.members ++ t.children.members

/-- Is the node a member of the group or of a descendant? -/
def holds (t : Tree) (n : NodeKey) : Bool := n ∈ t.root.members || t.children.holds n

/-- The first group of an id, parents before children. -/
def withId? (t : Tree) (id : String) : Option Group :=
  (Forest.ofTree t).find? (fun a => a.id = id)

theorem members_eq_flatMap (t : Tree) : t.members = t.preorder.flatMap (·.members) := by
  rw [members, preorder, List.flatMap_cons, Forest.members_eq_flatMap]

theorem holds_iff (t : Tree) (n : NodeKey) : t.holds n = true ↔ n ∈ t.members := by
  simp [holds, members, Forest.holds_iff]

theorem withId?_eq (t : Tree) (id : String) :
    t.withId? id = t.preorder.find? (fun a => a.id = id) := by
  rw [withId?, Forest.find?_eq, Forest.preorder_ofTree, preorder]

end Tree
end Patchbay
