import Patchbay.Definition
import Patchbay.Dict
/-!
# The registry of node types

A registry keeps, under the name of each type, how nodes of that type are made: from a
definition, or by a factory, which may be any function that makes nodes or refuses to. A type is
found under its name, or under its name behind a category and a slash.
-/
namespace Patchbay

/-- A function that makes nodes, or refuses to. Its nodes may be of any type and have any pins. It
is asked for nothing in particular: all that it takes is a supply of ids. -/
structure Factory where
  make : IdSupply → Option (Node × IdSupply)
  /-- No wire ends at a node that was just made, and it is in no group. -/
  fresh : ∀ {ids n ids'}, make ids = some (n, ids') → n.Fresh
  /-- Whether a node is made does not depend on the ids that are left. -/
  steady : ∀ ids ids', (make ids).isSome = (make ids').isSome

namespace Factory

/-- The factory that makes nothing. -/
def refusing : Factory := ⟨fun _ => none, nofun, fun _ _ => rfl⟩

/-- The factory that makes the nodes of a definition, which the registry does not show. -/
def ofDefinition (d : Definition) : Factory where
  make ids := some (d.make ids)
  fresh {ids n ids'} h := by
    have hn := d.fresh_make ids
    rwa [Option.some.inj h] at hn
  steady _ _ := by rw [Option.isSome_some, Option.isSome_some]

end Factory

/-- How the nodes of a type are made. -/
inductive Maker where
  | definition (d : Definition)
  | factory (f : Factory)

/-- A registered type. -/
structure Registration where
  category : String
  maker : Maker

/-- Node types by name. -/
structure Registry where
  entries : Dict Registration := .empty

namespace Registry

instance : Inhabited Registry := ⟨{}⟩

/-- Register a definition under its name; nothing is registered for none. -/
def register (r : Registry) (d : Option Definition) : Registry :=
  match d with
  | some d => ⟨r.entries.insert d.name ⟨d.category, .definition d⟩⟩
  | none => r

/-- Register a factory under a name; nothing is registered for none. -/
def registerFactory (r : Registry) (name category : String)
    (factory : Option Factory) : Registry :=
  match factory with
  | some f => ⟨r.entries.insert name ⟨category, .factory f⟩⟩
  | none => r

/-- Remove the type of a name. -/
def unregister (r : Registry) (name : String) : Registry := ⟨r.entries.erase name⟩

/-- Remove all types. -/
def clear (_ : Registry) : Registry := {}

/-- The number of types. -/
def size (r : Registry) : Nat := r.entries.size

/-- The part of a name behind its first slash. -/
def afterSlash? (name : String) : Option String :=
  match name.toList.dropWhile (· ≠ '/') with
  | _ :: rest => some (String.ofList rest)
  | [] => none

/-- The type that a name stands for. -/
def find? (r : Registry) (name : String) : Option Registration :=
  (r.entries.get? name).or ((afterSlash? name).bind r.entries.get?)

/-- Is there a type under the name? -/
def has (r : Registry) (name : String) : Bool := (r.find? name).isSome

/-- The definition under a name; a factory has none. -/
def definition? (r : Registry) (name : String) : Option Definition :=
  (r.find? name).bind fun e =>
    match e.maker with
    | .definition d => some d
    | .factory _ => none

/-- Make a node of the type under a name. -/
def create (r : Registry) (name : String) (ids : IdSupply) : Option (Node × IdSupply) :=
  (r.find? name).bind fun e =>
    match e.maker with
    | .definition d => some (d.make ids)
    | .factory f => f.make ids

/-- The names of all types, ascending. -/
def names (r : Registry) : List String := r.entries.keys

/-- The names of the types of a category, ascending. -/
def namesIn (r : Registry) (category : String) : List String :=
  (r.entries.entries.filter fun e => e.2.category = category).map (·.1)

/-- The categories of all types, ascending. -/
def categories (r : Registry) : List String :=
  (Dict.ofList (r.entries.entries.map fun e => (e.2.category, ()))).keys

/-- The complaint about a node without a definition. -/
def missingDefinition : String := "DefinedNode requires a node definition"

@[simp] theorem register_none (r : Registry) : r.register none = r := rfl

@[simp] theorem registerFactory_none (r : Registry) (name category : String) :
    r.registerFactory name category none = r := rfl

@[simp] theorem length_names (r : Registry) : r.names.length = r.size := Dict.length_keys _

theorem ascending_names (r : Registry) : r.names.Pairwise (· < ·) := Dict.ascending_keys _

end Registry
end Patchbay
