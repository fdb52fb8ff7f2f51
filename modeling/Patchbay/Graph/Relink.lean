import Patchbay.Graph.Grouping
/-!
# Finding stored references again

A graph from a document knows its groups, pins and main node only by id. Relinking looks
these ids up and restores what they stand for. Of several nodes, groups or pins with one id
the first counts. A wire whose pins are not found stays unresolved, and so does a wire into
an input that an earlier wire feeds.
-/
namespace Patchbay.Graph

/-- Index the members by their ids. -/
def reindex (g : Graph) : Graph :=
  { g with index := g.members.foldl (fun d k =>
      match g.node? k with
      | some n => if d.has n.id then d else d.insert n.id k
      | none => d) .empty }

/-- Give the pins of the members back to their nodes. -/
def adoptPins (g : Graph) : Graph :=
  g.members.foldl (fun g k => g.modifyNode k (·.mapPins fun p => { p with orphan := false })) g

/-- The first group of each id, by id. -/
def groupIndex (g : Graph) : Dict GroupKey :=
  g.allGroups.foldl (fun d a => if d.has a.id then d else d.insert a.id a.key) .empty

/-- Put a node into the group that a stored id names, or into none. -/
def regroup (index : Dict GroupKey) (g : Graph) (k : NodeKey) (wanted : Option String) : Graph :=
  let g := g.leaveAnyGroup k
  match wanted.bind index.get? with
  | some a => g.joinGroup a k
  | none => g.modifyNode k fun n => { n with groupId := none }

/-- Restore the memberships from the stored group ids. -/
def relinkGroups (g : Graph) : Graph :=
  let index := g.groupIndex
  let wanted := g.members.map fun k => (k, (g.node? k).bind (·.groupId))
  let g := index.entries.foldl (fun g e => g.clearGroup e.2) g
  wanted.foldl (fun g (k, id) => regroup index g k id) g

/-- The pins of some nodes by id, inputs before outputs, of which the first of an id counts. -/
def pinIndex (g : Graph) : Dict PinRef :=
  let refs := g.members.flatMap fun k => g.pinRefs k .input ++ g.pinRefs k .output
  refs.foldl (fun d r =>
    match g.pin? r with
    | some p => if d.has p.id then d else d.insert p.id r
    | none => d) .empty

/-- The wire that already feeds the pin at which another wire is to end. -/
def feederOf? (g : Graph) (w : WireKey) (t : PinRef) : Option WireKey :=
  if t.side = .input then
    ((g.pin? t).bind (·.incoming)).bind fun v => if v = w then none else some v
  else none

/-- The id of a wire. -/
def wireId (g : Graph) (w : WireKey) : String := ((g.wire? w).map (·.id)).getD ""

/-- The report on a second wire into an input. -/
def fedReport (g : Graph) (w v : WireKey) (t : PinRef) : Entry :=
  .warn ("Graph '" ++ g.name ++ "': connection " ++ g.wireId w ++ " targets input " ++
    g.pinIdOr t "" ++ " which is already fed by " ++ g.wireId v)

/-- Find the pins of a wire. A resolved wire passes its value on at once. -/
def relinkWire (index : Dict PinRef) (g : Graph) (w : WireKey) : Graph × Journal :=
  match g.wire? w with
  | none => (g, [])
  | some c =>
    let source := index.get? c.sourceId
    let target := index.get? c.targetId
    let feeder := target.bind fun t => (g.feederOf? w t).map (t, ·)
    let report := feeder.toList.map fun (t, v) => g.fedReport w v t
    let target := if feeder.isSome then none else target
    (((g.setSource w source).setTarget w target).transfer w, report)

/-- Find the pins of wires in their order. -/
def relinkWires (index : Dict PinRef) : Graph → List WireKey → Graph × Journal
  | g, [] => (g, [])
  | g, w :: ws =>
    let (g, report) := relinkWire index g w
    let (g, reports) := relinkWires index g ws
    (g, report ++ reports)

/-- The wires of the graph with an end that was not found. -/
def dangling (g : Graph) : List WireKey :=
  g.links.filter fun w => !(g.wire? w).any (·.resolved)

/-- The report on wires that were not resolved. -/
def danglingReport (g : Graph) : Journal :=
  if g.dangling.isEmpty then []
  else
    [.warn ("Graph '" ++ g.name ++ "': " ++
      Numeral.natText g.dangling.length ++
      " connection(s) reference unknown pins")]

/-- Forget a main node that is not a member. -/
def relinkMain (g : Graph) : Graph × Journal :=
  match g.mainId with
  | none => (g, [])
  | some id =>
    if (g.nodeWithId? id).isSome then (g, [])
    else
      ({ g with mainId := none },
        [.warn ("Graph '" ++ g.name ++ "': main node " ++ id ++ " not found")])

/-- Restore all references from the stored ids. -/
def relink (g : Graph) : Graph × Journal :=
  let g := g.reindex.adoptPins.relinkGroups
  let (g, fed) := relinkWires g.pinIndex g g.links
  let (h, lost) := g.relinkMain
  (h, fed ++ g.danglingReport ++ lost)

@[simp] theorem relinkWires_nil (index : Dict PinRef) (g : Graph) :
    relinkWires index g [] = (g, []) := rfl

/-- A graph without wires reports none of them as dangling. -/
theorem danglingReport_of_links_nil {g : Graph} (h : g.links = []) : g.danglingReport = [] := by
  simp [danglingReport, dangling, h]

end Patchbay.Graph
