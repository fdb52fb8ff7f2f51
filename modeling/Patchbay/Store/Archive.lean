import Patchbay.Store.Catalogue
/-!
# Catalogues as texts

Between two sessions a catalogue is kept as a document. The document has everything that the
catalogue has, so that a text can be told to be that of a catalogue or of something else.
-/
namespace Patchbay.Store.Archive

/-- The text under a key. -/
def textAt (j : Json) (key : String) : Option String :=
  (j.member? key).bind fun t => t.asString.toOption

/-- The integer under a key. -/
def intAt (j : Json) (key : String) : Option Int :=
  (j.member? key).bind fun
    | .int n => some n
    | _ => none

/-- The natural number under a key. -/
def natAt (j : Json) (key : String) : Option Nat :=
  (intAt j key).bind fun n => if 0 ≤ n then some n.toNat else none

/-- The items under a key, each of them read. -/
def itemsAt {α : Type} (read : Json → Option α) (j : Json) (key : String) : Option (List α) :=
  ((j.member? key).bind Json.items?).bind (·.mapM read)

/-- The document of a graph. -/
def ofRow (r : Row) : Json :=
  .ofMembers [("slug", .string r.slug), ("name", .string r.name),
    ("description", .string r.description), ("category", .string r.category),
    ("created", .string r.created), ("updated", .string r.updated)]

/-- The graph of a document. -/
def toRow? (j : Json) : Option Row := do
  return {
    slug := ← textAt j "slug", name := ← textAt j "name"
    description := ← textAt j "description", category := ← textAt j "category"
    created := ← textAt j "created", updated := ← textAt j "updated" }

/-- The document of a version. -/
def ofVersion (v : Version) : Json :=
  .ofMembers [("id", .ofNat v.id), ("slug", .string v.slug), ("name", .ofOption v.name),
    ("document", .string v.document), ("nodes", .ofNat v.nodes),
    ("connections", .ofNat v.connections), ("created", .string v.created)]

/-- The version of a document. -/
def toVersion? (j : Json) : Option Version := do
  return {
    id := ← natAt j "id", slug := ← textAt j "slug", name := textAt j "name"
    document := ← textAt j "document", nodes := ← natAt j "nodes"
    connections := ← natAt j "connections", created := ← textAt j "created" }

/-- The document of a catalogue. -/
def ofCatalogue (c : Catalogue) : Json :=
  .ofMembers [("schema", .int c.schema), ("tables", .bool (c.tables = .present)),
    ("graphs", .array (c.graphs.map ofRow)), ("versions", .array (c.versions.map ofVersion)),
    ("last_id", .ofNat c.lastId)]

/-- The catalogue of a document. -/
def toCatalogue? (j : Json) : Option Catalogue := do
  return {
    schema := ← intAt j "schema"
    tables := if ← (j.member? "tables").bind fun b => b.asBool.toOption
      then .present else .missing
    graphs := ← itemsAt toRow? j "graphs"
    versions := ← itemsAt toVersion? j "versions"
    lastId := ← natAt j "last_id" }

/-- The text of a catalogue. -/
def write (c : Catalogue) : String := (ofCatalogue c).print none ++ "\n"

/-- The catalogue of a text, if it is the text of one. -/
def read? (text : String) : Option Catalogue := (Json.parse text).toOption.bind toCatalogue?

end Patchbay.Store.Archive
