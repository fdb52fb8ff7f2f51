import Patchbay.Definition
import Patchbay.Document.Graph
import Patchbay.Graph.Members
import Patchbay.Store.Session
/-!
# Support for test sessions

Nothing here is part of the program. A test session is told to the program as a document, and what
it answers is compared as a text. For that the behaviours of nodes are described as scripts, node
types and the parts of graphs are written as documents, databases are changed behind the program,
and the identifiers that it makes up are hidden.
-/
namespace Patchbay

/-! ### Scripts

A script describes a behaviour as a list of actions that are performed in order. It reads
inputs, writes outputs, chooses flow outputs and can fail in every way in which a step can. -/

/-- One action of a script. -/
inductive Action where
  | set (output : String) (v : Value)
  /-- Copy an input to an output. -/
  | copy (input output : String)
  /-- Copy an output to another one. -/
  | copyOutput (source output : String)
  /-- Add a number to an input read as an integer. -/
  | add (input : String) (n : Int64) (output : String)
  /-- Add a number to an output read as an integer, with null for zero. -/
  | bump (output : String) (n : Int64)
  /-- Write an input read as a type; the type `any` stands for its text. -/
  | convert (type : ValueType) (input output : String)
  | nodeId (output : String)
  | nodeName (output : String)
  | fire (output : String)
  | halt
  | complain (message : String)
  /-- Branch on an earlier complaint. -/
  | ifComplaint (yes no : List Action)
  /-- Branch on a value other than null. -/
  | ifInput (input : String) (yes no : List Action)
  /-- Branch on a wire that feeds an input. -/
  | ifConnected (input : String) (yes no : List Action)
  /-- Report a text, followed by the text of an input if one is named. -/
  | log (text : String) (input : Option String)
  | logComplaint
  | fail (message : String)
  | refuse (message : String)
  | failUnnamed
  | cancel

/-- A list of actions. -/
abbrev Script := List Action

namespace Script

/-- A value read as a type; under `any` its text. -/
def converted (type : ValueType) (v : Value) : Except Value.ReadError Value :=
  match type with
  | .any => .ok (.string v.text)
  | .int => .int <$> v.asInt
  | .double => .double <$> v.asDouble
  | .string => .string <$> v.asString
  | .bool => .bool <$> v.asBool

/-- A value read as an integer, with null for zero. -/
def counted (v : Value) : Except Value.ReadError Int64 :=
  if v.isNull then .ok 0 else v.asInt

mutual

/-- Perform an action. -/
def perform : Action → Step Unit
  | .set output v => Step.setOutput output v
  | .copy input output => do Step.setOutput output (← Step.input input)
  | .copyOutput source output => do Step.setOutput output (← Step.output source)
  | .add input n output => do
    let m ← Step.orFault (← Step.input input).asInt
    Step.setOutput output (.int (m + n))
  | .bump output n => do
    let m ← Step.orFault (counted (← Step.output output))
    Step.setOutput output (.int (m + n))
  | .convert type input output => do
    Step.setOutput output (← Step.orFault (converted type (← Step.input input)))
  | .nodeId output => do Step.setOutput output (.string (← read).id)
  | .nodeName output => do Step.setOutput output (.string (← read).name)
  | .fire output => Step.fire output
  | .halt => Step.halt
  | .complain message => Step.complain message
  | .ifComplaint yes no => do
    if (← get).complaint.isSome then run yes else run no
  | .ifInput input yes no => do
    if ← Step.hasInput input then run yes else run no
  | .ifConnected input yes no => do
    if ← Step.isConnected input then run yes else run no
  | .log text none => Step.report (.info text)
  | .log text (some input) => do Step.report (.info (text ++ (← Step.input input).text))
  | .logComplaint => do Step.report (.info ((← get).complaint.getD ""))
  | .fail message => throw (.failed message)
  | .refuse message => throw (.refused message)
  | .failUnnamed => throw .unnamed
  | .cancel => Step.cancel

/-- Perform actions in order. -/
def run : List Action → Step Unit
  | [] => pure ()
  | a :: as => do
    perform a
    run as

end

@[simp] theorem run_nil : run [] = pure () := by simp [run]

end Script

namespace Document

/-! ### Scripts in documents

A script is written as an array of actions, and an action as an array of its name and its
arguments. A value is written plainly, but for a double, which is an object with the number
under the key `d`. -/

/-- The double of a number or of a word for one that JSON cannot write. -/
def toDouble? : Json → Option Float
  | .int n => some (Float.ofInt n)
  | .double x => some x.toFloat
  | .string "nan" => some Decimal.Binary.notANumber
  | .string "inf" => some (Decimal.Binary.infinity false)
  | .string "-inf" => some (Decimal.Binary.infinity true)
  | .string "-0" => some (Decimal.Binary.pack true 0 (-1074))
  | _ => none

/-- The value that is written plainly. -/
def plainValue : Json → Value
  | .bool b => .bool b
  | .int n => .int (Int64.ofInt n)
  | .string s => .string s
  | .double x => .double x
  | j => (((j.member? "d").bind toDouble?).map fun x => .double x).getD .null

/-- The type that the name of a conversion asks for. -/
def conversion? : String → Option ValueType
  | "as_int" => some .int
  | "as_double" => some .double
  | "as_string" => some .string
  | "as_bool" => some .bool
  | "as_text" => some .any
  | _ => none

/-- The action of a name with text arguments. -/
def textAction? : String → List String → Option Action
  | "copy", [a, b] => some (.copy a b)
  | "copy_out", [a, b] => some (.copyOutput a b)
  | "node_id", [a] => some (.nodeId a)
  | "node_name", [a] => some (.nodeName a)
  | "fire", [a] => some (.fire a)
  | "halt", [] => some .halt
  | "error", [m] => some (.complain m)
  | "log", [t] => some (.log t none)
  | "log", [t, a] => some (.log t (some a))
  | "log_error", [] => some .logComplaint
  | "throw", [m] => some (.fail m)
  | "throw_logic", [m] => some (.refuse m)
  | "throw_int", [] => some .failUnnamed
  | "cancel", [] => some .cancel
  | name, [a, b] => (conversion? name).map fun t => .convert t a b
  | _, _ => none

/-- The texts of a list of texts. -/
def allTexts? (js : List Json) : Option (List String) :=
  js.mapM fun j => j.asString.toOption

mutual

/-- The action of a document. -/
def toAction? : Json → Option Action
  | .array [.string "set", .string a, v] => some (.set a (plainValue v))
  | .array [.string "add", .string a, .int n, .string b] => some (.add a (Int64.ofInt n) b)
  | .array [.string "bump", .string a, .int n] => some (.bump a (Int64.ofInt n))
  | .array [.string "if_error", yes, no] => do
    return .ifComplaint (← toScript? yes) (← toScript? no)
  | .array [.string "if_input", .string a, yes, no] => do
    return .ifInput a (← toScript? yes) (← toScript? no)
  | .array [.string "if_connected", .string a, yes, no] => do
    return .ifConnected a (← toScript? yes) (← toScript? no)
  | .array (.string name :: args) => (allTexts? args).bind (textAction? name)
  | _ => none

/-- The script of a document. -/
def toScript? : Json → Option Script
  | .array js => toActions? js
  | _ => none

/-- The actions of a list of documents. -/
def toActions? : List Json → Option Script
  | [] => some []
  | j :: js => do return (← toAction? j) :: (← toActions? js)

end

/-! ### Node types in documents

A node type is written with its name, category and description and with its pins in order.
What its nodes do is read from a script. -/

/-- Why a document does not describe a node type. -/
inductive DefinitionError where
  | unknownType (name : String)
  /-- The script is not a list of known actions. -/
  | badScript
  deriving DecidableEq, Repr

/-- The wording of a refused description. -/
def DefinitionError.message : DefinitionError → String
  | .unknownType name => ValueType.unknownMessage name
  | .badScript => "Unknown action in a script"

/-- The text under a key, or a fallback if there is none. -/
def textOr (j : Json) (key fallback : String) : String :=
  ((j.member? key).bind fun t => t.asString.toOption).getD fallback

/-- The items under a key; no items if there is no array. -/
def itemsAt (j : Json) (key : String) : List Json := ((j.member? key).bind Json.items?).getD []

/-- The pin that a document describes. A flow pin without a name has the usual one of its
side. -/
def toPinSpec (usual : String) (j : Json) : Except DefinitionError PinSpec :=
  match j.member? "flow" with
  | some (.bool true) => .ok (.control (textOr j "name" usual))
  | _ =>
    let type := textOr j "type" "any"
    match ValueType.ofLabel? type with
    | some t =>
      .ok (.data (textOr j "name" "") t (((j.member? "default").map plainValue).getD .null))
    | none => .error (.unknownType type)

/-- The node type that a document describes, in a category if it names none. -/
def toDefinition (usual : String) (j : Json) : Except DefinitionError Definition := do
  let inputs ← (itemsAt j "inputs").mapM (toPinSpec "in")
  let outputs ← (itemsAt j "outputs").mapM (toPinSpec "out")
  match toScript? ((j.member? "script").getD (.array [])) with
  | none => .error .badScript
  | some script =>
    .ok {
      name := textOr j "name" "", category := textOr j "category" usual
      description := textOr j "description" "", inputs, outputs
      behaviour := Script.run script }

/-- The written form of a pin of a node type. -/
def ofPinSpec (p : PinSpec) : Json :=
  .array [.string p.name, .string p.type.label, .bool p.flow, ofValue p.initial]

/-- The written form of a node type, but for what its nodes do. -/
def ofDefinition (d : Definition) : Json :=
  .object [
    ("category", .string d.category),
    ("description", .string d.description),
    ("inputs", .array (d.inputs.map ofPinSpec)),
    ("name", .string d.name),
    ("outputs", .array (d.outputs.map ofPinSpec))]

/-! ### The parts of a graph in documents

An inspection tells what the document of a graph leaves out: how the parts are linked at the
moment, what the last evaluations came to, and which nodes a run can begin with. Wires are
named by whoever asks. -/

/-- The id of a node, or null. -/
def nodeId (g : Graph) (k : Option NodeKey) : Json := .ofOption ((k.bind g.node?).map (·.id))

/-- The id of a group, or null. -/
def groupId (g : Graph) (a : Option GroupKey) : Json :=
  .ofOption ((a.bind g.group?).map (·.id))

/-- The id of a pin, or null. -/
def pinId (g : Graph) (r : Option PinRef) : Json := .ofOption ((r.bind g.pin?).map (·.id))

/-- The ids of nodes. -/
def nodeIds (g : Graph) (ks : List NodeKey) : Json :=
  .array ((ks.filterMap g.node?).map fun n => .string n.id)

/-- The ids of groups. -/
def groupIds (as : List Group) : Json := .array (as.map fun a => .string a.id)

/-- The name of a side. -/
def sideName : Side → String
  | .input => "input"
  | .output => "output"

/-- A wire with its ends, as far as they are found. -/
def inspectWire (g : Graph) (w : WireKey) (c : Wire) : Json :=
  .object [
    ("flow", .bool (g.isFlowWire w)),
    ("id", .string c.id),
    ("resolved", .bool c.resolved),
    ("source", pinId g c.source),
    ("source_node", nodeId g (g.sourceNode? w)),
    ("source_pin_id", .string c.sourceId),
    ("target", pinId g c.target),
    ("target_node", nodeId g (g.targetNode? w)),
    ("target_pin_id", .string c.targetId),
    ("valid", .bool (g.isValidWire w))]

/-- A pin with the wires at it. -/
def inspectPin (wireName : WireKey → Json) (g : Graph) (r : PinRef) (p : Pin) : Json :=
  .object [
    ("connected", .bool p.isConnected),
    ("data", .bool !p.flow),
    ("default", ofValue p.initial),
    ("dir", .string (sideName r.side)),
    ("flow", .bool p.flow),
    ("id", .string p.id),
    ("incoming", (p.incoming.map wireName).getD .null),
    ("name", .string p.name),
    ("outgoing", .array (p.outgoing.map wireName)),
    ("parent", nodeId g (g.owner? r)),
    ("type", .string p.type.label),
    ("value", ofValue p.value)]

/-- The pins on a side of a node. -/
def inspectSide (wireName : WireKey → Json) (g : Graph) (k : NodeKey) (side : Side) : Json :=
  .array ((g.pinRefs k side).filterMap fun r => (g.pin? r).map (inspectPin wireName g r))

/-- A node with its pins and what its last evaluation came to. -/
def inspectNode (wireName : WireKey → Json) (g : Graph) (k : NodeKey) (n : Node) : Json :=
  .object [
    ("candidate", .bool (g.isCandidate n)),
    ("counts", .array ([n.flowCount .input, n.flowCount .output, n.dataCount .input,
      n.dataCount .output].map .ofNat)),
    ("enabled", .bool n.enabled),
    ("group", groupId g n.group),
    ("group_id", .ofOption n.groupId),
    ("has_flow", .bool n.hasFlow),
    ("id", .string n.id),
    ("in_graph", .bool (g.contains k)),
    ("inputs", inspectSide wireName g k .input),
    ("last_error", .string n.lastError),
    ("name", .string n.name),
    ("outputs", inspectSide wireName g k .output),
    ("position", ofPoint n.position),
    ("state", .string n.state.label),
    ("type", .string n.type)]

/-- What the last evaluation of a node came to: the flow outputs that it chose and the values
of its data outputs. -/
def inspectEvaluation (n : Node) : Json :=
  .object [
    ("fired", .array (n.exercised.filterMap fun i => (n.outputs[i]?).map (.string ·.name))),
    ("last_error", .string n.lastError),
    ("outputs", .array ((n.outputs.filter (!·.flow)).map fun p => ofValue p.value)),
    ("state", .string n.state.label)]

/-- A group with its place among the groups and its members. -/
def inspectGroup (g : Graph) (parent : Option Group) (t : Tree) : Json :=
  .object [
    ("all_nodes", nodeIds g t.members),
    ("bounds", ofRect t.root.bounds),
    ("children", groupIds t.children.roots),
    ("id", .string t.root.id),
    ("name", .string t.root.name),
    ("nodes", nodeIds g t.root.members),
    ("owned", .bool (g.ownsGroup t.root.key)),
    ("parent", .ofOption (parent.map (·.id))),
    ("pre_order", groupIds t.preorder)]

/-- The ends of a wire of the graph, and whether it joins them in a permitted way. -/
def linkOf (g : Graph) (w : WireKey) : Json :=
  let c := g.wire? w
  .array [pinId g (c.bind (·.source)), pinId g (c.bind (·.target)), .bool (g.isValidWire w)]

/-- What the last evaluation of a node came to, and the group that it is a member of. -/
def stateOf (g : Graph) (n : Node) : Json :=
  .array [.string n.id, .string n.state.label, .string n.lastError, groupId g n.group]

/-- A graph: its document and what that leaves out. -/
def inspectGraph (g : Graph) : Json :=
  .object [
    ("candidates", nodeIds g g.candidates),
    ("doc", ofGraph g),
    ("links", .array (g.links.map (linkOf g))),
    ("states", .array ((g.members.filterMap g.node?).map (stateOf g))),
    ("valid", .bool g.validate)]

end Document

namespace Store

/-! ### Databases that are changed behind the program -/

/-- A change that the rules do not know. -/
inductive Tampering where
  /-- Claim a schema. -/
  | schema (n : Int)
  /-- Put a text in place of all documents. -/
  | documents (text : String)
  /-- Put a text in place of all categories. -/
  | categories (text : String)
  deriving DecidableEq, Repr

namespace Tampering

/-- Does the change need to know the tables? -/
def needsTables : Tampering → Bool
  | schema _ => false
  | _ => true

/-- What becomes of a catalogue. A schema whose number does not fit into 32 bits counts as
none. -/
def changed (t : Tampering) (c : Catalogue) : Catalogue :=
  match t with
  | schema n => { c with schema := if -2147483648 ≤ n ∧ n < 2147483648 then n else 0 }
  | documents text =>
    { c with versions := c.versions.map ({ · with document := Text.untilNul text }) }
  | categories text =>
    { c with graphs := c.graphs.map ({ · with category := Text.untilNul text }) }

/-- What is written in place of a catalogue; nothing if no row of its tables changes. -/
def written? (t : Tampering) (c : Catalogue) : Option Catalogue :=
  if t.needsTables && t.changed c = c then none else some (t.changed c)

end Tampering

namespace Session

/-- Do two sessions work on their catalogue in the same way? -/
def sharesWay (s t : Session) : Bool :=
  s.address.shared && t.address.shared && s.address.system = t.address.system

/-- Have two sessions the same catalogue at hand? One that is kept in a file counts only if
they work on it in the same way. -/
def joins (s t : Session) : Bool :=
  match s.place, t.place with
  | .file p, .file q => s.sharesWay t && p = q
  | .nowhere _, .nowhere _ =>
    s.address.name ≠ "" && s.address.name = t.address.name &&
      (s.sharesWay t || (s.address.isStored && t.address.isStored))
  | _, _ => false

/-- Change a catalogue without regard to its rules. Where nothing may be written, the tables
are asked for at most. -/
def tamper (s : Session) (d : Disk) (t : Tampering) : Session × Disk :=
  match s.place with
  | .nowhere c =>
    if s.readOnly then (s, d) else ({ s with place := .nowhere (t.changed c) }, d)
  | .file p =>
    if s.readOnly && !t.needsTables then (s, d)
    else
      match s.read d p with
      | (.error _, s, d) => (s, d)
      | (.ok c, s, d) =>
        (s, if s.obstacle?.isSome then d else ((t.written? c).map (s.write d p)).getD d)

/-- Change the catalogue that a path or an address asks for without regard to its rules,
while a session may be at work. Nothing is said if that fails. -/
def alter (session : Option Session) (d : Disk) (path : String) (t : Tampering) :
    Option Session × Disk :=
  match connect d path with
  | (.error _, d) => (session, d)
  | (.ok other, d) =>
    match session.filter (·.joins other) with
    | some s =>
      let address := if s.sharesWay other then s.address else other.address
      let (u, d) := { s with address }.tamper d t
      (some { u with address := s.address }, d)
    | none =>
      let (other, d) := other.tamper d t
      let stays := session.any fun s => s.logging && s.place = other.place
      (session, if stays then d else other.stop d)

end Session
end Store

/-! ### Identifiers -/

/-- As many fresh identifiers as asked for. -/
def IdSupply.take : Nat → IdSupply → List String × IdSupply
  | 0, s => ([], s)
  | n + 1, s =>
    let (id, s) := s.fresh
    let (ids, s) := s.take n
    (id :: ids, s)

/-- The number of characters of an identifier. -/
def identifierLength : Nat := 36

/-- Does a text begin with hexadecimal digits in groups of 8, 4, 4, 4 and 12, the third group
with a 4 in front? -/
def hasIdentifier (s : List Char) : Bool :=
  let isHex (c : Char) : Bool := c.isDigit || ('a' ≤ c && c ≤ 'f')
  let dashes := [8, 13, 18, 23]
  s[8]? = some '-' && s[14]? = some '4' &&
    (List.range identifierLength).all fun i =>
      if i ∈ dashes then s[i]? = some '-' else s[i]?.any isHex

/-- Does a text have the form of a version 4 UUID, in lower case? -/
def isIdentifier (s : List Char) : Bool :=
  s.length = identifierLength && hasIdentifier s &&
    s[19]?.any (fun c => c ∈ ['8', '9', 'a', 'b'])

/-- Does one text stand somewhere in another one? -/
def standsIn (s : List Char) : List Char → Bool
  | [] => s.isEmpty
  | c :: text => s.isPrefixOf (c :: text) || standsIn s text

/-- Put a mark in place of each identifier that does not stand in a known text. The number
says how many characters belong to the identifier before. -/
def redactFrom (known mark : List Char) : Nat → List Char → List Char
  | _, [] => []
  | n + 1, _ :: s => redactFrom known mark n s
  | 0, c :: s =>
    if hasIdentifier (c :: s) then
      let id := (c :: s).take identifierLength
      (if standsIn id known then id else mark) ++ redactFrom known mark (identifierLength - 1) s
    else c :: redactFrom known mark 0 s

/-- Put a mark in place of each identifier that does not stand in a known text. -/
def redact (known mark text : String) : String :=
  String.ofList (redactFrom known.toList mark.toList 0 text.toList)

/-- A text in which no identifier begins stays as it is. -/
theorem redactFrom_of_forall_suffix (known mark : List Char) {s : List Char}
    (h : ∀ t, t <:+ s → hasIdentifier t = false) : redactFrom known mark 0 s = s := by
  induction s with
  | nil => rfl
  | cons c s ih =>
    have hc := h (c :: s) (List.suffix_refl _)
    have hs := ih fun t ht => h t (ht.trans (List.suffix_cons c s))
    simp [redactFrom, hc, hs]

/-- Every text stands in a longer one that ends with it. -/
theorem standsIn_append (a s : List Char) : standsIn s (a ++ s) = true := by
  induction a with
  | nil => cases s <;> simp [standsIn]
  | cons c a ih => simp [standsIn, ih]

end Patchbay
