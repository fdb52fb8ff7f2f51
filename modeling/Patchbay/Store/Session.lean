import Patchbay.Store.Companion
/-!
# Sessions

A session works on one catalogue, which is kept in a file or nowhere. Before a request is
carried out the session takes hold of its file. The files beside that one matter then: what
they say is settled at once, and what stands against that stands against the request.
-/
namespace Patchbay.Store

/-- Where the catalogue of a session is kept. -/
inductive Place where
  | file (p : Path)
  /-- Nowhere. It goes with the session. -/
  | nowhere (c : Catalogue)
  deriving DecidableEq

/-- What a session knows about the tables of its catalogue. -/
inductive Knowledge where
  | nothing
  | tables
  | noTables
  deriving DecidableEq, Repr

namespace Knowledge

/-- What can be said of the tables of a catalogue that was read, and what the session knows
about them afterwards. -/
def heed (k : Knowledge) (tables : Tables) : Tables × Knowledge :=
  if tables = .present then (.present, .tables)
  else (if k = .tables then .lost else .missing, .noTables)

/-- What can be said of the tables of a catalogue that cannot be read. -/
def without (k : Knowledge) (o : Obstacle) : Tables :=
  if k = .noTables then .missing else .hidden o (k = .tables)

end Knowledge

/-- An open catalogue. To open a catalogue with the current schema the session does not look
for tables. -/
structure Session where
  path : String
  address : Address
  place : Place
  knowledge : Knowledge := .nothing
  /-- Are changes kept apart from the file? -/
  logging : Bool := false

namespace Session

/-- Is nothing to be written? -/
def readOnly (s : Session) : Bool := s.address.isReadOnly

/-! ### Taking hold of a file -/

/-- Has somebody else the file? -/
def lockObstacle? (s : Session) (d : Disk) (p : Path) : Option Obstacle :=
  let lock := p.companion .lock
  if !s.address.locksByFile then none
  else if !lock.hasShortNames then some .failing
  else if (d.fileAt? lock).isSome then some .locked
  else none

/-- Settle the journal of a change that was broken off. A journal that belongs to an empty
file says nothing, and neither does one that begins with a zero octet. One that says
something is worked off, for which the file must be written to. -/
def settleJournal (s : Session) (d : Disk) (p : Path) : Except Obstacle Disk :=
  let journal := p.companion .journal
  match (d.textAt journal).toList with
  | [] => .ok d
  | c :: _ =>
    if s.address.locksByFile then .ok d
    else if isBlank (d.textAt p) then
      .ok (if s.readOnly && !s.address.locksNothing then d else d.removeAt journal)
    else if c = '\x00' then .ok d
    else if s.readOnly then .error .readOnly
    else .ok (d.removeAt journal)

/-- Settle the log of changes. One that belongs to an empty file says nothing. -/
def settleLog (s : Session) (d : Disk) (p : Path) : Except Obstacle (Bool × Disk) :=
  let log := p.companion .log
  if d.textAt log = "" then .ok (false, d)
  else if isBlank (d.textAt p) then .ok (false, d.removeAt log)
  else if !s.address.canLog then .error .unreachable
  else .ok (true,
    if s.address.indexesInFile then d.putAt (p.companion .index) (.text "") else d)

/-- Take hold of a file and settle what the files beside it say. -/
def settle (s : Session) (d : Disk) (p : Path) : Except Obstacle Session × Disk :=
  if s.address.isFixed || s.logging then (.ok s, d)
  else
    match s.lockObstacle? d p with
    | some o => (.error o, d)
    | none =>
      match s.settleJournal d p with
      | .error o => (.error o, d)
      | .ok d =>
        match s.settleLog d p with
        | .error o => (.error o, d)
        | .ok (logging, d) => (.ok { s with logging }, d)

/-- The catalogue of a file, once the session has taken hold of it. -/
def read (s : Session) (d : Disk) (p : Path) : Except Obstacle Catalogue × Session × Disk :=
  match s.settle d p with
  | (.error o, d) => (.error o, s, d)
  | (.ok s, d) => (d.catalogueAt p, s, d)

/-- Put a catalogue into a file. The journal that is kept meanwhile is gone afterwards. -/
def write (s : Session) (d : Disk) (p : Path) (c : Catalogue) : Disk :=
  (if s.logging then d else d.removeAt (p.companion .journal)).putAt p (.catalogue c)

/-! ### Requests -/

/-- Look at a file that is said not to change, once and for all. Whether there are tables is
known from the beginning. -/
def lookOnce (s : Session) (d : Disk) (p : Path) : Catalogue × Session :=
  if s.knowledge ≠ .tables then ({ readOnly := true }, s)
  else
    match d.catalogueAt p with
    | .ok c =>
      if c.tables = .present then
        let c := { c with readOnly := true }
        (c, { s with place := .nowhere c })
      else ({ tables := .hidden .damaged true, readOnly := true }, s)
    | .error _ => ({ tables := .hidden .damaged true, readOnly := true }, s)

/-- Is it known without a look that a change is not permitted? -/
def refusesChange (s : Session) : Bool := s.readOnly && s.knowledge = .tables

/-- Look at the catalogue of a session for a request, which may be a change. What the session
knows of its tables decides how the request fails if they are not there any more. -/
def look (s : Session) (d : Disk) (change : Bool) : Catalogue × Session × Disk :=
  match s.place with
  | .nowhere c => (c, s, d)
  | .file p =>
    if change && s.refusesChange then ({ tables := .present, readOnly := true }, s, d)
    else if s.address.isFixed then
      let (c, s) := s.lookOnce d p
      (c, s, d)
    else
      match s.read d p with
      | (.error o, s, d) =>
        ({ tables := s.knowledge.without o, readOnly := s.readOnly }, s, d)
      | (.ok c, s, d) =>
        let (tables, knowledge) := s.knowledge.heed c.tables
        ({ c with tables, readOnly := s.readOnly }, { s with knowledge }, d)

/-- Keep a catalogue after a request, if it has changed. -/
def keep (s : Session) (d : Disk) (c : Catalogue) : Session × Disk :=
  match s.place with
  | .nowhere _ => ({ s with place := .nowhere c }, d)
  | .file p => (s, if d.fileAt? p = some (.catalogue c) then d else s.write d p c)

/-- End a session. The last one that keeps changes apart brings them home, if it may. -/
def stop (s : Session) (d : Disk) : Disk :=
  match s.place with
  | .file p => if s.logging && !s.readOnly then d.removeLog p else d
  | .nowhere _ => d

/-! ### Beginnings -/

/-- The report on a catalogue that was opened. -/
def readyReport (path : String) : Entry := .debug ("Graph database ready: " ++ path)

/-- What stands against a change of the catalogue of a session. A device keeps none. -/
def obstacle? (s : Session) : Option Obstacle :=
  if s.readOnly then some .readOnly
  else
    match s.place with
    | .nowhere _ => none
    | .file p =>
      match p.device? with
      | some .sink => some .failing
      | some .full => some .full
      | none => if (p.companion .journal).hasShortNames then none else some .unreachable

/-- Find the file of an address, and make it if that is permitted. -/
def reach (d : Disk) (a : Address) : Except Obstacle (Path × Disk) :=
  match d.locate? a.name with
  | none => .error .unreachable
  | some p =>
    if (a.option? "modeof").any (d.read? · = none) then .error .failing
    else if a.access = .readOnly && d.isDirectory p then .error .failing
    else if !d.canHoldAt p then .error .unreachable
    else if (d.fileAt? p).isSome then .ok (p, d)
    else if a.access = .create then .ok (p, d.putAt p (.text ""))
    else .error .unreachable

/-- A session with the catalogue that a path or an address asks for, before anything was
asked of it. The disk afterwards is the second part of the answer. -/
def connect (d : Disk) (path : String) : Except OpenError Session × Disk :=
  match Address.ofText (Text.untilNul path) with
  | .error e => (.error (.address e), d)
  | .ok a =>
    if a.isPrivate then (.ok { path, address := a, place := .nowhere {} }, d)
    else
      match reach d a with
      | .error o => (.error (.blocked o), d)
      | .ok (p, d) => (.ok { path, address := a, place := .file p }, d)

/-- Bring the catalogue of a session to the current schema. -/
def prepare (s : Session) (d : Disk) : Except Error Session × Disk :=
  match s.place with
  | .nowhere c =>
    ((c.migrate s.path s.obstacle?).map fun c => { s with place := .nowhere c }, d)
  | .file p =>
    let (c, s, d) := s.read d p
    match c.mapError Error.blocked with
    | .error e => (.error e, s.stop d)
    | .ok c =>
      match c.migrate s.path s.obstacle? with
      | .error e => (.error e, s.stop d)
      | .ok m =>
        if m ≠ c then (.ok { s with knowledge := .tables }, s.write d p m)
        else if s.address.isFixed then
          (.ok { s with knowledge := (s.knowledge.heed c.tables).2 }, d)
        else (.ok s, d)

/-- Open the catalogue that a path or an address asks for, and make one if there is none. -/
def start (d : Disk) (path : String) : Except Error Session × Disk :=
  match connect d path with
  | (.error e, d) => (.error (.unopened path e), d)
  | (.ok s, d) => s.prepare d

/-! ### Facts -/

/-- A session that keeps changes apart has hold of its file. -/
@[simp] theorem settle_of_logging {s : Session} (h : s.logging = true) (d : Disk) (p : Path) :
    s.settle d p = (.ok s, d) := by
  simp [settle, h]

/-- A lock stands against everybody who heeds it. -/
theorem settle_of_locked {s : Session} {d : Disk} {p : Path} (hx : s.address.isFixed = false)
    (hl : s.logging = false) {o : Obstacle} (h : s.lockObstacle? d p = some o) :
    s.settle d p = (.error o, d) := by
  simp [settle, hx, hl, h]

@[simp] theorem fileAt?_write (s : Session) (d : Disk) {p : Path} (h : p.device? = none)
    (c : Catalogue) : (s.write d p c).fileAt? p = some (.catalogue c) := by
  simp [write, h]

/-- What a session sees of a file that it can take hold of is what the file holds. -/
theorem look_of_settle {s : Session} {d e : Disk} {p : Path} {c : Catalogue}
    (hp : s.place = .file p) (hx : s.address.isFixed = false) (hs : s.settle d p = (.ok s, e))
    (hf : e.fileAt? p = some (.catalogue c)) (ht : c.tables = .present)
    (hr : c.readOnly = s.readOnly) : (s.look d false).1 = c := by
  simp only [look, hp, hx, Bool.false_and, read, hs, Disk.catalogueAt, hf, Option.getD_some,
    File.catalogue?, Knowledge.heed, ht, ← hr, if_true, Bool.false_eq_true, if_false]
  rw [← ht]

end Session
end Patchbay.Store
