import Mathlib.Data.List.TakeWhile
import Mathlib.Logic.Function.Basic
import Patchbay.Proofs.Store.Rollback
/-!
# What a catalogue is for

A catalogue is used as a map from slugs to folders: what is known of a graph, and the versions that
were saved of it, in the order in which they were saved. This map has operations of its own, which
say nothing about tables, rows and the order of a listing.

## Main definitions

* `Request`: a request that may change what is stored.
* `Request.work`, `Catalogue.carryOut`, `Catalogue.after`: a request to a catalogue.
* `Ledger`: the map from slugs to folders, with `Ledger.carryOut` and `Ledger.after`.
* `Catalogue.ledger`: the map that a catalogue stands for.
* `Request.Adds`, `Request.Removes`: the versions that come and go with a request.
-/
namespace Patchbay.Store

/-! ### Requests -/

/-- A text without NUL characters. -/
def Plain (s : String) : Prop := '\x00' ∉ s.toList

instance (s : String) : Decidable (Plain s) := inferInstanceAs (Decidable (_ ∉ _))

/-- A text without NUL characters is kept as a whole. -/
theorem Plain.untilNul_eq {s : String} (h : Plain s) : Text.untilNul s = s := by
  have htake : s.toList.takeWhile (· ≠ '\x00') = s.toList := by
    refine List.takeWhile_eq_self_iff.2 fun c hc => ?_
    have hne : c ≠ '\x00' := fun e => h (e ▸ hc)
    simpa using hne
  rw [Text.untilNul, htake, String.ofList_toList]

/-- A request that may change what is stored. -/
inductive Request where
  | create (m : Metadata)
  | update (m : Metadata)
  | delete (slug : String)
  | save (slug : String) (g : Graph) (name : Option String)
  | deleteVersion (id : Int64)
  | prune (slug : String) (keep : Nat)

/-- The texts of a request have no NUL characters. -/
def Request.Plain : Request → Prop
  | create m | update m => Store.Plain m.slug ∧ Store.Plain m.name ∧ Store.Plain m.description
  | delete slug | prune slug _ => Store.Plain slug
  | save slug _ name => Store.Plain slug ∧ ∀ s ∈ name, Store.Plain s
  | deleteVersion _ => True

instance (q : Request) : Decidable q.Plain := by
  cases q <;> unfold Request.Plain <;> infer_instance

/-- The answer to a request that was carried out. -/
inductive Answer where
  | done
  | saved (id : Nat)
  | removed (count : Nat)
  deriving DecidableEq, Repr

/-- The work that a request asks for. What it writes to the journal is left out. -/
def Request.work (now : Timestamp) : Request → Work Answer
  | .create m => (fun _ => .done) <$> Work.create now m
  | .update m => (fun _ => .done) <$> Work.update now m
  | .delete slug => (fun _ => .done) <$> Work.delete slug
  | .save slug g name => (fun r => .saved r.1) <$> Work.save now slug g name
  | .deleteVersion id => (fun _ => .done) <$> Work.deleteVersion id
  | .prune slug keep => (fun r => .removed r.1) <$> Work.prune slug keep

/-- A request that fails leaves the catalogue as it was, whatever stands against its statements. -/
theorem Request.safe_work (now : Timestamp) (q : Request) : (q.work now).Safe := by
  cases q with
  | create m => exact (Work.safe_create now m).map _
  | update m => exact (Work.safe_update now m).map _
  | delete slug => exact (Work.safe_delete slug).map _
  | save slug g name => exact (Work.safe_save now slug g name).map _
  | deleteVersion id => exact (Work.safe_deleteVersion id).map _
  | prune slug keep => exact (Work.safe_prune slug keep).map _

namespace Catalogue

/-- Carry out a request. The answer comes with the catalogue afterwards. -/
def carryOut (c : Catalogue) (now : Timestamp) (q : Request) : Except Error (Answer × Catalogue) :=
  (q.work now).result c

/-- What is there after a request, whether it is carried out or fails. -/
def after (c : Catalogue) (now : Timestamp) (q : Request) : Catalogue :=
  ((q.work now).run .never c).2

/-- What is there after a request is what it came to, or what was there before. -/
theorem after_eq (c : Catalogue) (now : Timestamp) (q : Request) :
    c.after now q = ((c.carryOut now q).toOption.map (·.2)).getD c :=
  (q.safe_work now).run_eq c

/-- What is there after requests at some times. -/
def afterAll (c : Catalogue) (qs : List (Timestamp × Request)) : Catalogue :=
  qs.foldl (fun c q => c.after q.1 q.2) c

/-- The answers to requests at some times. -/
def answers : Catalogue → List (Timestamp × Request) → List (Except Error Answer)
  | _, [] => []
  | c, q :: qs => (c.carryOut q.1 q.2).map (·.1) :: (c.after q.1 q.2).answers qs

end Catalogue

/-! ### Ledgers -/

/-- What is stored under a slug: what is known of the graph, and the versions that were saved, the
oldest first. -/
structure Folder where
  about : Metadata
  versions : List Version := []

/-- Folders under their slugs, and the greatest number that a version was given. -/
structure Ledger where
  folder? : String → Option Folder := fun _ => none
  lastId : Nat := 0

namespace Ledger

/-- Put a folder under a slug, or take it away. -/
def put (l : Ledger) (slug : String) (f : Option Folder) : Ledger :=
  { l with folder? := Function.update l.folder? slug f }

/-- The versions under a slug, the oldest first. -/
def versions (l : Ledger) (slug : String) : List Version :=
  ((l.folder? slug).map (·.versions)).getD []

/-- The version that a graph becomes when it is saved. -/
def newVersion (l : Ledger) (now : Timestamp) (slug : String) (g : Graph) (name : Option String) :
    Version where
  id := l.lastId + 1
  slug
  name
  document := (Document.ofGraph g).print none
  nodes := g.members.length
  connections := g.links.length
  created := now.utc

/-- Carry out a request. A graph can be created under a free slug only, and updated and saved only
where there is one, of the same category if it is saved. Everything else succeeds. -/
def carryOut (l : Ledger) (now : Timestamp) : Request → Except Error (Answer × Ledger)
  | .create m =>
    match l.folder? m.slug with
    | some _ => .error (.duplicate m.slug)
    | none => .ok (.done, l.put m.slug (some
      { about := { m with created := now.utc, updated := now.utc } }))
  | .update m =>
    match l.folder? m.slug with
    | none => .error (.unknownGraph m.slug)
    | some f => .ok (.done, l.put m.slug (some
      { f with about := { m with created := f.about.created, updated := now.utc } }))
  | .delete slug => .ok (.done, l.put slug none)
  | .save slug g name =>
    match l.folder? slug with
    | none => .error (.unknownGraph slug)
    | some f =>
      if f.about.category ≠ g.category then
        .error (.otherCategory slug f.about.category g.category)
      else
        .ok (.saved (l.lastId + 1), { l.put slug (some
          { about := { f.about with updated := now.utc }
            versions := f.versions ++ [l.newVersion now slug g name] }) with
          lastId := l.lastId + 1 })
  | .deleteVersion id =>
    .ok (.done, { l with folder? := fun slug => (l.folder? slug).map fun f =>
      { f with versions := f.versions.filter fun v => (v.id : Int) ≠ id.toInt } })
  | .prune slug keep =>
    match l.folder? slug with
    | none => .ok (.removed 0, l)
    | some f => .ok (.removed (f.versions.length - keep), l.put slug (some
      { f with versions := f.versions.drop (f.versions.length - keep) }))

/-- What is left after a request. Nothing is left of one that fails. -/
def after (l : Ledger) (now : Timestamp) (q : Request) : Ledger :=
  ((l.carryOut now q).toOption.map (·.2)).getD l

/-- What is left after requests at some times. -/
def afterAll (l : Ledger) (qs : List (Timestamp × Request)) : Ledger :=
  qs.foldl (fun l q => l.after q.1 q.2) l

/-- The answers to requests at some times. -/
def answers : Ledger → List (Timestamp × Request) → List (Except Error Answer)
  | _, [] => []
  | l, q :: qs => (l.carryOut q.1 q.2).map (·.1) :: (l.after q.1 q.2).answers qs

@[simp] theorem lastId_put (l : Ledger) (slug : String) (f : Option Folder) :
    (l.put slug f).lastId = l.lastId := rfl

end Ledger

/-! ### What a catalogue stands for -/

namespace Catalogue

/-- The folder that a catalogue has under a slug. -/
def folder? (c : Catalogue) (slug : String) : Option Folder :=
  (c.graphs.find? fun r => r.slug = slug).bind fun r => r.metadata.toOption.map fun about =>
    { about, versions := c.versions.filter fun v => v.slug = slug }

/-- The map from slugs to folders that a catalogue stands for. -/
def ledger (c : Catalogue) : Ledger := { folder? := c.folder?, lastId := c.lastId }

theorem ledger_fresh : fresh.ledger = {} := rfl

@[simp] theorem folder?_ledger (c : Catalogue) : c.ledger.folder? = c.folder? := rfl

@[simp] theorem lastId_ledger (c : Catalogue) : c.ledger.lastId = c.lastId := rfl

end Catalogue

/-! ### Versions that come and go -/

/-- A request adds a version: a graph is saved under a slug of its category. -/
def Request.Adds (c : Catalogue) (now : Timestamp) (v : Version) : Request → Prop
  | .save slug g name => (∃ f, c.folder? slug = some f ∧ f.about.category = g.category) ∧
      v = c.ledger.newVersion now slug g name
  | _ => False

/-- A request takes a version away: the version itself is deleted or its graph is, or it is not
among those that are to be kept. -/
def Request.Removes (c : Catalogue) (v : Version) : Request → Prop
  | .delete slug => v.slug = slug
  | .deleteVersion id => (v.id : Int) = id.toInt
  | .prune slug keep => v.slug = slug ∧ v ∉ (c.history slug).take keep
  | _ => False

end Patchbay.Store
