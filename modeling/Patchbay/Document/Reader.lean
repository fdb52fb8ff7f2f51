import Patchbay.Registry
import Patchbay.Document.Value
import Patchbay.Graph.Relink
import Patchbay.Json.Parser
/-!
# Reading graph documents

A document is read node by node, wire by wire and group by group, and the references by id
are looked up at the end. Nodes of a type that nobody registered are left out, and missing
optional members have defaults. Everything else that is out of place ends the reading.
-/
namespace Patchbay.Document

/-- A graph that is being read, with the reports made on the way. -/
structure Draft where
  graph : Graph
  journal : Journal := []

/-- A part of reading a document. What is raised leaves the draft as it is. -/
abbrev Loader := ExceptT Raised (StateM Draft)

namespace Loader

/-- Change the graph. -/
def change (f : Graph → Graph) : Loader Unit := modify fun d => { d with graph := f d.graph }

/-- Report to the journal. -/
def report (e : Entry) : Loader Unit := modify fun d => { d with journal := d.journal ++ [e] }

/-- A fresh id. -/
def freshId : Loader String := do
  let d ← get
  let (id, graph) := d.graph.freshId
  set { d with graph }
  return id

/-- The result of asking for a member of some kind. -/
def need {α : Type} : Except Json.Mismatch α → Loader α
  | .ok a => return a
  | .error e => throw (.jsonKind e)

/-- The member under a key if it is an array with at least so many items. -/
def itemsOf? (j : Json) (key : String) (least : Nat := 0) : Option (List Json) :=
  ((j.member? key).bind Json.items?).filter fun js => least ≤ js.length

/-- The items of a member that is an array; no items if it is anything else. -/
def itemsOf (j : Json) (key : String) : List Json := (itemsOf? j key).getD []

/-- Read the numbers at the front of a list, as many as asked for. -/
def numbers (count : Nat) (js : List Json) : Loader (List Float) :=
  (js.take count).mapM fun j => return (← need j.asDouble).toFloat

/-! ### Nodes -/

/-- A pin with the id and the value that a document has for it. -/
def pin (j : Json) (p : Pin) : Loader Pin := do
  let p ← match j.member? "id" with
    | some id => do pure { p with id := ← need id.asString }
    | none => pure p
  match j.member? "value" with
  | some v =>
    if p.flow then return p
    else
      match toValue v with
      | .ok v => return p.assign v
      | .error e => throw e
  | none => return p

/-- Pins with what a list of documents has for them. The shorter of the two lists counts. -/
def pinList : List Json → List Pin → Loader (List Pin)
  | j :: js, p :: ps => do return (← pin j p) :: (← pinList js ps)
  | _, ps => return ps

/-- The pins of a side with what the document of their node has for them. -/
def pins (j : Json) (key : String) (ps : List Pin) : Loader (List Pin) :=
  match j.member? key with
  | none => return ps
  | some list =>
    match list.items? with
    | some js => pinList js ps
    | none => throw (.ofWords "Invalid node: pin list must be an array")

/-- The node of a document, made by the registry under its type. -/
def nodeOf (j : Json) (id type : String) (n : Node) : Loader Node := do
  let name ← need (j.memberOr "name" Json.asString type)
  let enabled ← need (j.memberOr "enabled" Json.asBool true)
  let groupId ← need (j.optionalString "group_id")
  let position ← match itemsOf? j "position" 2 with
    | none => pure n.position
    | some js => do
      match ← numbers 2 js with
      | [x, y] => pure ⟨x, y⟩
      | _ => pure n.position
  let inputs ← pins j "inputs" n.inputs
  let outputs ← pins j "outputs" n.outputs
  return { n with id, name, enabled, groupId, position, inputs, outputs }

/-- Read a node. A node of an unknown type is left out. -/
def node (r : Registry) (j : Json) : Loader Unit := do
  match j.member? "id", j.member? "type" with
  | some id, some type =>
    let id ← need id.asString
    let type ← need type.asString
    let d ← get
    match r.create type d.graph.ids with
    | none => report (.warn ("Skipping node " ++ id ++ ": unknown type '" ++ type ++ "'"))
    | some (n, ids) =>
      set { d with graph := { d.graph with ids } }
      let n ← nodeOf j id type n
      change fun g =>
        let (k, g) := g.newNode n
        (g.insertNode k).2
  | _, _ => throw (.ofWords "Invalid node: missing 'id' or 'type'")

/-! ### Wires -/

/-- Read a wire. Its pins are looked up later. -/
def wire (j : Json) : Loader Unit := do
  match j.member? "source_pin_id", j.member? "target_pin_id" with
  | some s, some t =>
    let id ← match j.member? "id" with
      | some id => need id.asString
      | none => freshId
    let sourceId ← need s.asString
    let targetId ← need t.asString
    change fun g =>
      let (w, g) := g.newWire { id, sourceId, targetId }
      (g.insertWire w).2
  | _, _ => throw (.ofWords "Invalid connection: missing pin ids")

/-! ### Groups -/

/-- Note the group of a node that does not name one itself. -/
def claim (groupId : String) (j : Json) : Loader Unit := do
  let id ← need j.asString
  change fun g =>
    match g.nodeWithId? id with
    | some k => g.modifyNode k fun n => { n with groupId := n.groupId.or (some groupId) }
    | none => g

/-- The report on a group whose parent was not read before it. -/
def orphanReport (parent : String) : Entry :=
  .warn ("Group parent " ++ parent ++ " not found, keeping group as root")

/-- Put a group below the parent that it names, if that was read before. -/
def place (read : Dict GroupKey) (parent : Option String) (a : GroupKey) : Loader Unit :=
  match parent with
  | none => change (·.registerGroup a)
  | some id =>
    match read.get? id with
    | some p => change fun g => (g.adoptGroup p (some a)).2
    | none => do
      report (orphanReport id)
      change (·.registerGroup a)

/-- Read a group. The groups read before are known by their ids, of which the first
counts. -/
def group (read : Dict GroupKey) (j : Json) : Loader (Dict GroupKey) := do
  let name ← need (j.memberOr "name" Json.asString "Group")
  let fresh ← freshId
  let id ← match j.member? "id" with
    | some id => need id.asString
    | none => pure fresh
  let bounds ← match itemsOf? j "bounds" 4 with
    | none => pure .nothing
    | some js => do
      match ← numbers 4 js with
      | [x, y, width, height] => pure ⟨x, y, width, height⟩
      | _ => pure .nothing
  (itemsOf j "node_ids").forM (claim id)
  let parent ← need (j.optionalString "parent_id")
  let d ← get
  let (a, graph) := d.graph.newGroup name bounds
  set { d with graph := graph.modifyGroup a fun b => { b with id } }
  place read parent a
  return if read.has id then read else read.insert id a

/-- Read groups in their order. -/
def groups : Dict GroupKey → List Json → Loader Unit
  | _, [] => return
  | read, j :: js => do groups (← group read j) js

/-! ### Whole documents -/

/-- The category that a document names. -/
def category (j : Json) : Loader Category := do
  match j.member? "category" with
  | none => return .controlFlow
  | some c =>
    let name ← need c.asString
    match Category.ofLabel? name with
    | some c => return c
    | none => throw (.badArgument (Category.unknownMessage name))

/-- The id that a document gives to its graph; a fresh one if it gives no text. -/
def graphId (j : Json) : Loader String :=
  match j.member? "id" with
  | some (.string id) => return id
  | _ => freshId

/-- Read the members of a document into an empty graph. -/
def members (r : Registry) (j : Json) : Loader Unit := do
  let name ← need (j.memberOr "name" Json.asString "Graph")
  let id ← graphId j
  let category ← category j
  change fun g => { g with id, name, category, replaceInputs := true, mainId := none }
  (itemsOf j "nodes").forM (node r)
  (itemsOf j "connections").forM wire
  groups .empty (itemsOf j "groups")
  let mainId ← need (j.optionalString "main_node_id")
  let d ← get
  let (graph, journal) := { d.graph with mainId }.relink
  set { graph, journal := d.journal ++ journal : Draft }

/-- What a document is refused for when something was raised while its members were read. That JSON
values are of the wrong kind, and that a name stands for nothing, is caught; complaints are passed
on. -/
def refusal (e : Raised) : Raised :=
  if e.isJson then e.under "Malformed graph JSON: "
  else if e.isArgument then e.under "Malformed graph JSON: "
  else e

/-- Read a document into an empty graph. -/
def document (r : Registry) (j : Json) : Loader Unit := do
  if !j.isObject then throw (.ofWords "Invalid graph: expected a JSON object")
  tryCatch (members r j) fun e => throw (refusal e)

end Loader

/-- What reading a document came to. The journal has the reports made before a failure. -/
structure Loaded where
  result : Except Raised Graph
  journal : Journal := []

/-- Read a document with the types of a registry. What lies loose beside the given empty
graph lies beside the new one as well. -/
def load (r : Registry) (empty : Graph) (j : Json) : Loaded :=
  match (Loader.document r j).run { graph := empty } with
  | (.ok (), d) => ⟨.ok d.graph, d.journal⟩
  | (.error e, d) => ⟨.error e, d.journal⟩

/-- Read a text as JSON. That it is none is caught, and nothing else. -/
def parse (text : String) : Except Raised Json :=
  match Json.parse text with
  | .ok j => .ok j
  | .error e =>
    let e := Raised.ofParse e
    .error (if e.isSyntax then e.under "Invalid graph JSON: " else e)

theorem parse_eq_ok_iff {text : String} {j : Json} :
    parse text = .ok j ↔ Json.parse text = .ok j := by
  rw [parse]
  cases Json.parse text <;> simp

/-- Read the text of a document. -/
def loadText (r : Registry) (empty : Graph) (text : String) : Loaded :=
  match parse text with
  | .ok j => load r empty j
  | .error e => ⟨.error e, []⟩

/-- A value that is no object is no document. -/
theorem load_of_not_isObject (r : Registry) (empty : Graph) {j : Json}
    (h : j.isObject = false) :
    load r empty j = ⟨.error (.ofWords "Invalid graph: expected a JSON object"), []⟩ := by
  have hd : (Loader.document r j).run { graph := empty } =
      (.error (.ofWords "Invalid graph: expected a JSON object"), { graph := empty }) := by
    simp only [Loader.document, h]
    rfl
  simp [load, hd]

end Patchbay.Document
