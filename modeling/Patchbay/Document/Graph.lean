import Patchbay.Document.Value
import Patchbay.Graph.Basic
/-!
# The document of a graph

A document tells the nodes with their pins and values, the wires by the ids of their pins,
and the groups, parents before children, with the ids of their members.
-/
namespace Patchbay.Document

/-- The document of a pin. Only data pins have a value. -/
def ofPin (p : Pin) : Json :=
  .object ([("data_type", .string p.type.label), ("flow", .bool p.flow), ("id", .string p.id),
    ("name", .string p.name)] ++ if p.flow then [] else [("value", ofValue p.value)])

/-- A place. -/
def ofPoint (p : Point Float) : Json := .array [.double p.x, .double p.y]

/-- A region. -/
def ofRect (r : Rect Float) : Json :=
  .array [.double r.x, .double r.y, .double r.width, .double r.height]

/-- The document of a node. -/
def ofNode (n : Node) : Json :=
  .object [
    ("enabled", .bool n.enabled),
    ("group_id", .ofOption n.groupId),
    ("id", .string n.id),
    ("inputs", .array (n.inputs.map ofPin)),
    ("name", .string n.name),
    ("outputs", .array (n.outputs.map ofPin)),
    ("position", ofPoint n.position),
    ("type", .string n.type)]

/-- The document of a wire. -/
def ofWire (w : Wire) : Json :=
  .object [("id", .string w.id), ("source_pin_id", .string w.sourceId),
    ("target_pin_id", .string w.targetId)]

/-- The document of a group, with the id of its parent. -/
def ofGroup (g : Graph) (parent : Option String) (a : Group) : Json :=
  .object [
    ("bounds", ofRect a.bounds),
    ("id", .string a.id),
    ("name", .string a.name),
    ("node_ids", .array ((a.members.filterMap g.node?).map fun n => .string n.id)),
    ("parent_id", .ofOption parent)]

/-- The documents of the groups of a forest below a parent, parents before children. -/
def ofForest (g : Graph) (parent : Option String) : Forest → List Json
  | .nil => []
  | .cons a children rest =>
    ofGroup g parent a :: (ofForest g (some a.id) children ++ ofForest g parent rest)

/-- The document of a graph. -/
def ofGraph (g : Graph) : Json :=
  .object [
    ("category", .string g.category.label),
    ("connections", .array ((g.links.filterMap g.wire?).map ofWire)),
    ("groups", .array (ofForest g none g.groups)),
    ("id", .string g.id),
    ("main_node_id", .ofOption g.mainId),
    ("name", .string g.name),
    ("nodes", .array ((g.members.filterMap g.node?).map ofNode))]

/-- There is one document for every group. -/
theorem length_ofForest (g : Graph) (parent : Option String) (f : Forest) :
    (ofForest g parent f).length = f.preorder.length := by
  induction f generalizing parent with
  | nil => rfl
  | cons a cs rest ihc ih => simp [ofForest, Forest.preorder, ihc, ih]

end Patchbay.Document
