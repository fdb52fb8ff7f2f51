import Patchbay.Document.Graph
import Patchbay.Document.Reader
import Patchbay.Json.Printer
import Patchbay.Store.Address
import Patchbay.Text
import Patchbay.Timestamp
/-!
# The catalogue of graphs

A catalogue keeps graphs under their slugs and, for each of them, the versions that were
saved: the document of a graph with a name and the numbers of its nodes and connections.
Versions are numbered upwards and no number is given twice. A graph that is deleted takes
its versions with it. Texts are kept up to their first NUL character.
-/
namespace Patchbay.Store

/-- What is known of a graph besides its versions. -/
structure Metadata where
  slug : String
  name : String := ""
  description : String := ""
  category : Category := .controlFlow
  created : String := ""
  updated : String := ""
  deriving DecidableEq, Repr

/-- A graph as it is kept. The category is a text, which need not be the name of one. -/
structure Row where
  slug : String
  name : String
  description : String
  category : String
  created : String
  updated : String
  deriving DecidableEq, Repr

/-- A saved version of a graph. -/
structure Version where
  id : Nat
  slug : String
  name : Option String
  document : String
  nodes : Nat
  connections : Nat
  created : String
  deriving DecidableEq, Repr

/-- What is known of a graph as a document, without the times. -/
def Metadata.toJson (m : Metadata) : Json :=
  .ofMembers [("slug", .string m.slug), ("name", .string m.name),
    ("description", .string m.description), ("category", .string m.category.label)]

/-- A version as a document, without its time and without the graph itself. -/
def Version.toJson (v : Version) : Json :=
  .ofMembers [("id", .ofNat v.id), ("slug", .string v.slug),
    ("version", .ofOption v.name), ("node_count", .ofNat v.nodes),
    ("connection_count", .ofNat v.connections)]

/-- What stands against the use of a catalogue or against a change of it. -/
inductive Obstacle where
  /-- Nothing may be written. -/
  | readOnly
  /-- There is no place for a file that is needed. -/
  | unreachable
  /-- A file that is needed cannot be asked for. -/
  | failing
  /-- Somebody else has the file. -/
  | locked
  /-- The file is something else. -/
  | notCatalogue
  /-- The file has changed although it was said that it would not. -/
  | damaged
  /-- There is no room for what is to be written. -/
  | full
  deriving DecidableEq, Repr

/-- The wording of an obstacle. -/
def Obstacle.message : Obstacle → String
  | readOnly => "attempt to write a readonly database"
  | unreachable => "unable to open database file"
  | failing => "disk I/O error"
  | locked => "database is locked"
  | notCatalogue => "file is not a database"
  | damaged => "database disk image is malformed"
  | full => "database or disk is full"

/-- Are there tables to keep graphs and versions in? -/
inductive Tables where
  | present
  | missing
  /-- There are none, but there were when they were last asked for. -/
  | lost
  /-- They cannot be asked for. It may be known that there were tables. -/
  | hidden (o : Obstacle) (known : Bool)
  deriving DecidableEq, Repr

/-- The graphs and versions of a catalogue. -/
structure Catalogue where
  /-- The schema that the catalogue claims to follow. -/
  schema : Int := 0
  tables : Tables := .missing
  /-- Is nothing to be changed? -/
  readOnly : Bool := false
  graphs : List Row := []
  versions : List Version := []
  /-- The greatest number that a version was given. -/
  lastId : Nat := 0
  deriving DecidableEq, Repr

/-- The schema that is understood here. -/
def currentSchema : Int := 1

/-! ### Errors -/

/-- The table that a request needs. -/
inductive Table where
  | graphs
  | versions
  deriving DecidableEq, Repr

/-- The name of a table. -/
def Table.name : Table → String
  | graphs => "graphs"
  | versions => "graph_versions"

/-- A request to a catalogue, in the language of its tables. -/
inductive Query where
  | find
  | get
  | list
  | update
  | delete
  | version
  | versionsOf
  | latest
  | deleteVersion
  | prune
  deriving DecidableEq, Repr

namespace Query

/-- The columns of a graph. -/
def graphColumns : String := "slug, name, description, category, created_at, updated_at"

/-- The columns of a version. -/
def versionColumns : String :=
  "id, graph_slug, version_name, graph_json, node_count, connection_count, created_at"

/-- The order in which versions are listed, the newest first. -/
def newestFirst : String := " ORDER BY created_at DESC, id DESC"

/-- The table that a request needs first. -/
def table : Query → Table
  | find | get | list | update | delete => .graphs
  | version | versionsOf | latest | deleteVersion | prune => .versions

/-- The text of a request. -/
def text : Query → String
  | find => "SELECT 1 FROM graphs WHERE slug = ?"
  | get => "SELECT " ++ graphColumns ++ " FROM graphs WHERE slug = ?"
  | list => "SELECT " ++ graphColumns ++ " FROM graphs ORDER BY updated_at DESC, slug"
  | update =>
    "UPDATE graphs SET name = ?, description = ?, category = ?, updated_at = ? WHERE slug = ?"
  | delete => "DELETE FROM graphs WHERE slug = ?"
  | version => "SELECT " ++ versionColumns ++ " FROM graph_versions WHERE id = ?"
  | versionsOf =>
    "SELECT " ++ versionColumns ++ " FROM graph_versions WHERE graph_slug = ?" ++ newestFirst
  | latest =>
    "SELECT " ++ versionColumns ++ " FROM graph_versions WHERE graph_slug = ?" ++ newestFirst ++
      " LIMIT 1"
  | deleteVersion => "DELETE FROM graph_versions WHERE id = ?"
  | prune =>
    "DELETE FROM graph_versions WHERE graph_slug = ? AND id NOT IN (SELECT id FROM " ++
      "graph_versions WHERE graph_slug = ?" ++ newestFirst ++ " LIMIT ?)"

end Query

/-- Why a catalogue cannot be opened. -/
inductive OpenError where
  | address (e : AddressError)
  | blocked (o : Obstacle)
  deriving DecidableEq, Repr

/-- The wording of a failure to open a catalogue. -/
def OpenError.message : OpenError → String
  | .address e => e.message
  | .blocked o => o.message

/-- Why a catalogue refuses a request. -/
inductive Error where
  | unopened (path : String) (e : OpenError)
  /-- A request that was understood cannot be carried out. -/
  | blocked (o : Obstacle)
  /-- A transaction cannot begin. -/
  | unbegun (o : Obstacle)
  /-- A transaction cannot end. -/
  | uncommitted (o : Obstacle)
  /-- A request cannot be understood because the tables cannot be asked for. -/
  | notUnderstood (q : Query) (o : Obstacle)
  | newerSchema (path : String) (schema : Int)
  /-- The catalogue claims a schema without having its tables. -/
  | noTable (q : Query)
  /-- The tables were there when they were last asked for. -/
  | lostTable (t : Table)
  /-- The current schema is needed where it cannot be made. -/
  | noSchema (o : Obstacle)
  | duplicate (slug : String)
  | unknownGraph (slug : String)
  | unknownCategory (name : String)
  /-- A graph is saved under the slug of a graph of another category. -/
  | otherCategory (slug : String) (kept given : Category)
  | noVersion (slug : String)
  | unknownVersion (id : Int64)
  | document (e : Document.Raised)
  deriving DecidableEq, Repr

/-- The wording of a refused request, without the part that only the reader of JSON texts
can tell. -/
def Error.headline (e : Error) : String :=
  Text.untilNul <| match e with
    | .unopened path e => "Cannot open graph database " ++ path ++ ": " ++ e.message
    | .blocked o => "SQLite step failed: " ++ o.message
    | .unbegun o => "BEGIN IMMEDIATE failed: " ++ o.message
    | .uncommitted o => "COMMIT failed: " ++ o.message
    | .notUnderstood q o => "Cannot prepare '" ++ q.text ++ "': " ++ o.message
    | .lostTable t => "SQLite step failed: no such table: " ++ t.name
    | .noSchema o => "SQL error: " ++ o.message
    | .newerSchema path schema =>
      "Graph database " ++ path ++ " uses schema " ++ Numeral.intText schema ++
        ", this build supports up to " ++ Numeral.intText currentSchema
    | .noTable q => "Cannot prepare '" ++ q.text ++ "': no such table: " ++ q.table.name
    | .duplicate slug => "Graph already exists: " ++ slug
    | .unknownGraph slug => "Graph not found: " ++ slug
    | .unknownCategory name => Category.unknownMessage name
    | .otherCategory slug kept given =>
      "Graph '" ++ slug ++ "' is stored as " ++ kept.label ++ ", cannot save a " ++ given.label ++
        " graph"
    | .noVersion slug => "No version found for graph: " ++ slug
    | .unknownVersion id => "Version not found: " ++ Numeral.intText id.toInt
    | .document e => e.headline

/-- What the reader of JSON texts has to tell about a refused request. -/
def Error.detail? : Error → Option String
  | .document e => e.detail?
  | _ => none

/-- The wording of a refused request. -/
def Error.message (e : Error) : String := e.headline ++ e.detail?.getD ""

namespace Row

/-- What is known of a graph, if its category is one. -/
def metadata (r : Row) : Except Error Metadata :=
  match Category.ofLabel? r.category with
  | some category => .ok { r with category }
  | none => .error (.unknownCategory r.category)

/-- Is the first row listed no later than the second one? The graph that was changed last
comes first, and of several the one with the least slug. -/
def listedBefore (a b : Row) : Bool :=
  b.updated < a.updated || (a.updated = b.updated && a.slug ≤ b.slug)

end Row

/-- Is the first version listed no later than the second one? The newest comes first. -/
def Version.listedBefore (a b : Version) : Bool :=
  b.created < a.created || (a.created = b.created && b.id ≤ a.id)

namespace Catalogue

/-- A catalogue with the current schema and nothing in it. -/
def fresh : Catalogue := { schema := currentSchema, tables := .present }

/-- Bring a catalogue to the current schema, unless it follows a later one. An obstacle
matters only if there is something to change. -/
def migrate (c : Catalogue) (path : String) (obstacle : Option Obstacle) :
    Except Error Catalogue :=
  if currentSchema < c.schema then .error (.newerSchema path c.schema)
  else if c.schema = currentSchema then .ok c
  else
    match obstacle with
    | some o => .error (.noSchema o)
    | none => .ok { c with schema := currentSchema, tables := .present }

/-- A change needs the permission to write. -/
def permit (c : Catalogue) : Except Error Unit :=
  if c.readOnly then .error (.blocked .readOnly) else .ok ()

/-- A request needs tables. -/
def need (c : Catalogue) (q : Query) : Except Error Unit :=
  match c.tables with
  | .present => .ok ()
  | .missing => .error (.noTable q)
  | .lost => .error (.lostTable q.table)
  | .hidden o false => .error (.notUnderstood q o)
  | .hidden o true => .error (.blocked o)

/-! ### Graphs -/

/-- The graph under a slug. -/
def row? (c : Catalogue) (slug : String) : Option Row :=
  c.graphs.find? fun r => r.slug = Text.untilNul slug

/-- Is there a graph under the slug? -/
def has (c : Catalogue) (slug : String) : Except Error Bool := do
  c.need .find
  return (c.row? slug).isSome

/-- What is known of the graph under a slug. -/
def get (c : Catalogue) (slug : String) : Except Error (Option Metadata) := do
  c.need .get
  match c.row? slug with
  | some r => return some (← r.metadata)
  | none => return none

/-- What is known of all graphs, the one that was changed last first. -/
def list (c : Catalogue) : Except Error (List Metadata) := do
  c.need .list
  (c.graphs.mergeSort Row.listedBefore).mapM Row.metadata

/-! ### Versions -/

/-- The versions of a graph, the newest first. -/
def history (c : Catalogue) (slug : String) : List Version :=
  (c.versions.filter fun v => v.slug = Text.untilNul slug).mergeSort Version.listedBefore

/-- The versions of a graph, the newest first. -/
def versionsOf (c : Catalogue) (slug : String) : Except Error (List Version) := do
  c.need .versionsOf
  return c.history slug

/-- The newest version of a graph. -/
def latest (c : Catalogue) (slug : String) : Except Error (Option Version) := do
  c.need .latest
  return (c.history slug).head?

/-- The version of a number. -/
def version (c : Catalogue) (id : Int64) : Except Error (Option Version) := do
  c.need .version
  return c.versions.find? fun v => (v.id : Int) = id.toInt

/-! ### Documents -/

/-- The document of the newest version of a graph. -/
def latestDocument (c : Catalogue) (slug : String) : Except Error String := do
  if !(← c.has slug) then throw (.unknownGraph slug)
  match ← c.latest slug with
  | some v => return v.document
  | none => throw (.noVersion slug)

/-- The document of the version of a number. -/
def documentOf (c : Catalogue) (id : Int64) : Except Error String := do
  match ← c.version id with
  | some v => return v.document
  | none => throw (.unknownVersion id)

/-- A graph made from a stored document, if there is one. The journal has the reports made
before a failure. -/
def loadFrom (r : Registry) (empty : Graph) (document : Except Error String) :
    Except Error Graph × Journal :=
  match document with
  | .error e => (.error e, [])
  | .ok text =>
    match Document.loadText r empty text with
    | ⟨.ok g, journal⟩ => (.ok g, journal)
    | ⟨.error e, journal⟩ => (.error (.document e), journal)

/-- Load the newest version of a graph. -/
def loadLatest (c : Catalogue) (r : Registry) (empty : Graph) (slug : String) :
    Except Error Graph × Journal :=
  loadFrom r empty (c.latestDocument slug)

/-- Load the version of a number. -/
def loadVersion (c : Catalogue) (r : Registry) (empty : Graph) (id : Int64) :
    Except Error Graph × Journal :=
  loadFrom r empty (c.documentOf id)

/-! ### Facts -/

@[simp] theorem graphs_fresh : fresh.graphs = [] := rfl

@[simp] theorem versions_fresh : fresh.versions = [] := rfl

/-- A catalogue with the current schema needs no migration. -/
theorem migrate_of_current {c : Catalogue} (h : c.schema = currentSchema) (path : String)
    (obstacle : Option Obstacle) : c.migrate path obstacle = .ok c := by
  simp [migrate, h]

/-- A version belongs to the history of the slug under which it was saved. -/
theorem mem_history {c : Catalogue} {slug : String} {v : Version} :
    v ∈ c.history slug ↔ v ∈ c.versions ∧ v.slug = Text.untilNul slug := by
  simp [history]

end Catalogue

end Patchbay.Store
