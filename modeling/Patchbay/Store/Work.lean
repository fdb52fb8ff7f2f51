import Patchbay.Store.Catalogue
/-!
# Work on a catalogue

A request that changes a catalogue is carried out by statements, one after the other. A statement
writes all that it is to write or fails without writing anything. What it has written stays when a
later statement fails, unless both are in a transaction: this one takes back what was written since
it began. Nothing else sees to it that a failed request changes nothing.
-/
namespace Patchbay.Store

/-- A statement that writes, or the beginning or the end of a transaction. -/
inductive Statement where
  | begin
  | insertGraph
  | updateGraph
  | deleteGraph
  | insertVersion
  | touchGraph
  | deleteVersion
  | prune
  | commit
  deriving DecidableEq, Repr

/-- What stands against statements, besides the state of the catalogue. -/
abbrev Trouble := Statement → Option Obstacle

/-- Nothing stands against any statement. -/
def Trouble.never : Trouble := fun _ => none

/-- Work on a catalogue. What was written before it failed is there afterwards. -/
abbrev Work := ReaderT Trouble (ExceptT Error (StateM Catalogue))

namespace Work
variable {α β : Type}

/-- The answer to work on a catalogue, and the catalogue afterwards. -/
def run (w : Work α) (t : Trouble) (c : Catalogue) : Except Error α × Catalogue :=
  (ReaderT.run w t).run.run c

/-- Ask the catalogue. -/
def ask (f : Catalogue → Except Error α) : Work α := do
  match f (← get) with
  | .ok a => return a
  | .error e => throw e

/-- Carry out a statement that writes. -/
def write (s : Statement) (f : Catalogue → α × Catalogue) : Work α := do
  ask (·.permit)
  match (← read) s with
  | some o => throw (.blocked o)
  | none => modifyGet f

/-- Carry out the beginning or the end of a transaction. -/
def mark (s : Statement) (failure : Obstacle → Error) : Work Unit := do
  match (← read) s with
  | some o => throw (failure o)
  | none => return

/-- Work in a transaction. If any part of it fails, or its end does, then what was written since its
beginning is taken back. -/
def transaction (w : Work α) : Work α := do
  mark .begin .unbegun
  let before ← get
  try
    let a ← w
    mark .commit .uncommitted
    pure a
  catch e =>
    set before
    throw e

/-! ### Statements -/

/-- Add a row to the graphs. -/
def insertGraph (row : Row) : Work Unit :=
  write .insertGraph fun c => ((), { c with graphs := c.graphs ++ [row] })

/-- Change the graphs with a slug. The answer is their number. -/
def updateGraphs (s : Statement) (slug : String) (f : Row → Row) : Work Nat :=
  write s fun c =>
    (c.graphs.countP (·.slug = Text.untilNul slug), { c with
      graphs := c.graphs.map fun r => if r.slug = Text.untilNul slug then f r else r })

/-- Delete the graphs with a slug, and with each of them its versions. The answer is the number of
deleted graphs. -/
def deleteGraphs (slug : String) : Work Nat :=
  write .deleteGraph fun c =>
    let gone := c.graphs.filter (·.slug = Text.untilNul slug)
    (gone.length, { c with
      graphs := c.graphs.filter (·.slug ≠ Text.untilNul slug)
      versions := c.versions.filter fun v => v.slug ∉ gone.map (·.slug) })

/-- Add a version under the next number, which is the answer. -/
def insertVersion (version : Nat → Version) : Work Nat :=
  write .insertVersion fun c =>
    let id := c.lastId + 1
    (id, { c with versions := c.versions ++ [version id], lastId := id })

/-- Delete some versions. The answer is their number. -/
def deleteVersions (s : Statement) (which : Catalogue → Version → Bool) : Work Nat :=
  write s fun c =>
    (c.versions.countP (which c), { c with versions := c.versions.filter fun v => !which c v })

/-! ### Requests -/

/-- Add a graph. -/
def create (now : Timestamp) (m : Metadata) : Work (Unit × Journal) := do
  if ← ask (·.has m.slug) then throw (.duplicate m.slug)
  insertGraph
    { slug := Text.untilNul m.slug, name := Text.untilNul m.name
      description := Text.untilNul m.description, category := m.category.label
      created := now.utc, updated := now.utc }
  return ((), [.info ("Created graph '" ++ m.slug ++ "'")])

/-- Change what is known of a graph. -/
def update (now : Timestamp) (m : Metadata) : Work (Unit × Journal) := do
  ask (·.need .update)
  let changed ← updateGraphs .updateGraph m.slug fun r =>
    { r with
      name := Text.untilNul m.name, description := Text.untilNul m.description
      category := m.category.label, updated := now.utc }
  if changed = 0 then throw (.unknownGraph m.slug)
  return ((), [])

/-- Delete the graph under a slug, with its versions. -/
def delete (slug : String) : Work (Unit × Journal) := do
  ask (·.need .delete)
  let deleted ← deleteGraphs slug
  return ((), if deleted = 0 then [] else [.info ("Deleted graph '" ++ slug ++ "'")])

/-- Save a graph as the newest version under a slug. The version and the time at which the graph was
changed are written together. -/
def save (now : Timestamp) (slug : String) (g : Graph) (name : Option String) :
    Work (Nat × Journal) := do
  match ← ask (·.get slug) with
  | none => throw (.unknownGraph slug)
  | some m =>
    if m.category ≠ g.category then throw (.otherCategory slug m.category g.category)
    let id ← transaction do
      let id ← insertVersion fun id =>
        { id, slug := Text.untilNul slug, name := name.map Text.untilNul
          document := (Document.ofGraph g).print none
          nodes := g.members.length, connections := g.links.length, created := now.utc }
      let _ ← updateGraphs .touchGraph slug fun r => { r with updated := now.utc }
      return id
    return (id,
      [.info ("Saved '" ++ slug ++ "' version " ++ Numeral.natText id ++ " (" ++
        Numeral.natText g.members.length ++ " nodes)")])

/-- Delete the version of a number. -/
def deleteVersion (id : Int64) : Work (Unit × Journal) := do
  ask (·.need .deleteVersion)
  let _ ← deleteVersions .deleteVersion fun _ v => (v.id : Int) = id.toInt
  return ((), [])

/-- Is a version not among the newest ones of its graph? -/
def isOld (slug : String) (keep : Nat) (c : Catalogue) (v : Version) : Bool :=
  v.slug = Text.untilNul slug && v.id ∉ ((c.history slug).take keep).map (·.id)

/-- Delete all versions of a graph but the newest ones. The first part of the answer is the number
of deleted versions. -/
def prune (slug : String) (keep : Nat) : Work (Nat × Journal) := do
  ask (·.need .prune)
  let removed ← deleteVersions .prune (isOld slug keep)
  return (removed, if removed = 0 then [] else
    [.info ("Pruned " ++ Numeral.natText removed ++ " old version(s) of '" ++ slug ++ "'")])

/-! ### Facts -/

section
variable (t : Trouble) (c : Catalogue)

@[simp] theorem run_pure (a : α) : (pure a : Work α).run t c = (.ok a, c) := rfl

@[simp] theorem run_throw (e : Error) : (throw e : Work α).run t c = (.error e, c) := rfl

/-- A part of the work is followed by the rest, or it fails and the rest does not matter. -/
theorem run_bind (w : Work α) (f : α → Work β) : (w >>= f).run t c =
    match w.run t c with
    | (.ok a, d) => (f a).run t d
    | (.error e, d) => (.error e, d) := by
  change ExceptT.bindCont (fun a => ReaderT.run (f a) t) (w.run t c).1 (w.run t c).2 = _
  cases w.run t c with
  | mk r d => cases r <;> rfl

@[simp] theorem run_ask (f : Catalogue → Except Error α) : (ask f).run t c = (f c, c) := by
  change run (match f c with | .ok a => pure a | .error e => throw e) t c = _
  cases f c <;> rfl

/-- A statement is carried out, or it fails and writes nothing. -/
theorem run_write (s : Statement) (f : Catalogue → α × Catalogue) : (write s f).run t c =
    match c.permit, t s with
    | .error e, _ => (.error e, c)
    | .ok (), some o => (.error (.blocked o), c)
    | .ok (), none => (.ok (f c).1, (f c).2) := by
  rw [write, run_bind, run_ask]
  cases c.permit with
  | error e => rfl
  | ok u =>
    change run (match t s with | some o => throw (.blocked o) | none => modifyGet f) t c = _
    cases t s <;> rfl

theorem run_mark (s : Statement) (failure : Obstacle → Error) : (mark s failure).run t c =
    match t s with
    | some o => (.error (failure o), c)
    | none => (.ok (), c) := by
  change run (match t s with | some o => throw (failure o) | none => pure ()) t c = _
  cases t s <;> rfl

theorem run_tryCatch (w : Work α) (f : Error → Work α) : (tryCatch w f).run t c =
    match w.run t c with
    | (.ok a, d) => (.ok a, d)
    | (.error e, d) => (f e).run t d := by
  have hrun : ReaderT.run w t c = w.run t c := rfl
  change (ExceptT.tryCatch (ReaderT.run w t) fun e => ReaderT.run (f e) t) c = _
  simp only [ExceptT.tryCatch, ExceptT.mk, bind, StateT.bind, hrun]
  cases w.run t c with
  | mk r d => cases r <;> rfl

/-- A transaction that fails leaves what was there when it began. -/
theorem run_transaction (w : Work α) : (transaction w).run t c =
    match t .begin, w.run t c, t .commit with
    | some o, _, _ => (.error (.unbegun o), c)
    | none, (.error e, _), _ => (.error e, c)
    | none, (.ok _, _), some o => (.error (.uncommitted o), c)
    | none, (.ok a, d), none => (.ok a, d) := by
  rw [transaction, run_bind, run_mark]
  cases t .begin with
  | some o => rfl
  | none =>
    change run (tryCatch (w >>= fun a => mark .commit .uncommitted >>= fun _ => pure a)
      fun e => set c >>= fun _ => throw e) t c = _
    rw [run_tryCatch, run_bind]
    cases w.run t c with
    | mk r d =>
      cases r with
      | error e => rfl
      | ok a =>
        simp only [run_bind, run_mark]
        cases t .commit <;> rfl

end
end Work
end Patchbay.Store
