import Patchbay.Store.Catalogue
import Patchbay.Store.Path
/-!
# Files

A disk holds files under paths, and a file holds a text or a catalogue of graphs. There can
be a file only in a directory that exists. Under some paths there is a device: it takes texts
like a file and keeps none of them.
-/
namespace Patchbay.Store

/-- What a file holds. -/
inductive File where
  | text (s : String)
  | catalogue (c : Catalogue)
  deriving DecidableEq

/-- The text of a file. Of a catalogue only the mark at its beginning can be read. -/
def File.content : File → String
  | .text s => s
  | .catalogue _ => "SQLite format 3\x00"

/-- What stands in the place of a file and keeps nothing. -/
inductive Device where
  /-- Takes every text. -/
  | sink
  /-- Has no room for any text. -/
  | full
  deriving DecidableEq, Repr

/-- The device at the end of a way. -/
def Path.device? (p : Path) : Option Device :=
  if p.key = "/dev/null" then some .sink
  else if p.key = "/dev/full" then some .full
  else none

/-- How many octets of a text wait before they are brought to a device. -/
def Device.patience : Nat := 8191

/-- Does a device refuse a text at once? A short one waits, and whether it is refused later
is not asked. -/
def Device.refuses (v : Device) (s : String) : Bool :=
  v = .full && patience ≤ s.utf8ByteSize

/-- The keys of directories that are always there. -/
def systemDirectories : List String :=
  ["/bin", "/dev", "/etc", "/home", "/lib", "/opt", "/root", "/tmp", "/usr", "/var"]

/-- The files by the keys of their paths, and the keys of the directories that are known to
exist besides the working directory and those above it. -/
structure Disk where
  files : Dict File := .empty
  directories : List String := systemDirectories

namespace Disk

instance : Inhabited Disk := ⟨{}⟩

/-- The file at the end of a way. A device looks like an empty file. -/
def fileAt? (d : Disk) (p : Path) : Option File :=
  if p.device?.isSome then some (.text "") else d.files.get? p.key

/-- Put a file at the end of a way. -/
def putAt (d : Disk) (p : Path) (f : File) : Disk :=
  if p.device?.isSome then d else { d with files := d.files.insert p.key f }

/-- Take away the file at the end of a way. -/
def removeAt (d : Disk) (p : Path) : Disk := { d with files := d.files.erase p.key }

/-- Does a path lead to a directory? The empty text leads nowhere. -/
def isDirectory (d : Disk) (p : Path) : Bool := p.isUpward || p.key ∈ d.directories

/-- Can there be a file at the end of a way? -/
def canHoldAt (d : Disk) (p : Path) : Bool :=
  !d.isDirectory p && p.names.getLast? ≠ some Path.above && p.hasShortNames &&
    d.isDirectory p.parent

/-- Can there be a file under a path? -/
def canHold (d : Disk) (path : String) : Bool :=
  let p := Path.ofString path
  Path.fits path && !p.toDirectory && d.canHoldAt p

/-- The file under a path. -/
def file? (d : Disk) (path : String) : Option File := d.fileAt? (Path.ofString path)

/-- Put a file under a path. -/
def put (d : Disk) (path : String) (f : File) : Disk := d.putAt (Path.ofString path) f

/-- The text under a path. A directory can be opened and has no text. -/
def read? (d : Disk) (path : String) : Option String :=
  let p := Path.ofString path
  if Text.untilNul path ≠ "" ∧ d.isDirectory p then some ""
  else if p.toDirectory then none
  else (d.file? path).map File.content

/-- The disk with a text under a path, if there can be one. -/
def write? (d : Disk) (path : String) (s : String) : Option Disk :=
  if d.canHold path then some (d.put path (.text s)) else none

/-- The disk with a text added to the one under a path, if there can be one. What stands
behind a catalogue does not belong to it. -/
def append? (d : Disk) (path : String) (s : String) : Option Disk :=
  match d.file? path with
  | some (.catalogue _) => some d
  | _ => d.write? path ((d.read? path).getD "" ++ s)

/-- The lines of the text under a path; no lines if there is no text. -/
def lines (d : Disk) (path : String) : List String :=
  let ls := Text.lines ((d.read? path).getD "").toList
  let ls := if ls.getLast? = some [] then ls.dropLast else ls
  ls.map String.ofList

@[simp] theorem fileAt?_of_device (d : Disk) {p : Path} (h : p.device?.isSome = true) :
    d.fileAt? p = some (.text "") := by
  simp [fileAt?, h]

@[simp] theorem putAt_of_device (d : Disk) {p : Path} (h : p.device?.isSome = true) (f : File) :
    d.putAt p f = d := by
  simp [putAt, h]

@[simp] theorem fileAt?_putAt (d : Disk) {p : Path} (h : p.device? = none) (f : File) :
    (d.putAt p f).fileAt? p = some f := by
  simp [putAt, fileAt?, h]

@[simp] theorem fileAt?_removeAt (d : Disk) {p : Path} (h : p.device? = none) :
    (d.removeAt p).fileAt? p = none := by
  simp [removeAt, fileAt?, h, Dict.get?_erase]

@[simp] theorem file?_put (d : Disk) {path : String} (h : (Path.ofString path).device? = none)
    (f : File) : (d.put path f).file? path = some f := by
  simp [put, file?, h]

@[simp] theorem directories_putAt (d : Disk) (p : Path) (f : File) :
    (d.putAt p f).directories = d.directories := by
  unfold putAt
  split <;> rfl

/-- A text is read as it was written, unless it went to a device. -/
theorem read?_write? {d e : Disk} {path : String} {s : String}
    (hv : (Path.ofString path).device? = none) (h : d.write? path s = some e) :
    e.read? path = some s := by
  simp only [write?] at h
  split at h
  · next hc =>
    cases h
    simp only [canHold, Bool.and_eq_true, Bool.not_eq_true'] at hc
    obtain ⟨⟨-, hd⟩, hc⟩ := hc
    have hn : (d.put path (.text s)).isDirectory (Path.ofString path) = false := by
      simp only [canHoldAt, Bool.and_eq_true, Bool.not_eq_true'] at hc
      simpa [isDirectory, put] using hc.1.1.1
    simp [read?, hd, hn, hv, File.content]
  · simp at h

end Disk

/-! ### Settings and graphs in files -/

/-- The settings in a file. A path may have an `@` in front. -/
def loadSettings (d : Disk) (path : String) : Except SettingsError Settings :=
  let path := match path.toList with
    | '@' :: rest => String.ofList rest
    | _ => path
  match d.read? path with
  | some text => .ok (Settings.parse text)
  | none => .error (.unreadable path)

/-- The graph in a file. -/
def loadGraph (d : Disk) (r : Registry) (empty : Graph) (path : String) : Document.Loaded :=
  match d.read? path with
  | some text => Document.loadText r empty text
  | none => ⟨.error (.ofWords ("Cannot open graph file: " ++ path)), []⟩

/-- The complaint about a path under which nothing can be written. -/
def unwritable (path : String) : String :=
  Text.untilNul ("Cannot open file for writing: " ++ path)

/-- The complaint about a device that has no room for a graph. -/
def unwritten (path : String) : String :=
  Text.untilNul ("Failed to write graph to: " ++ path)

/-- Put the document of a graph into a file. -/
def saveGraph (d : Disk) (g : Graph) (path : String) : Except String Disk :=
  let document := (Document.ofGraph g).print (some 2)
  match d.write? path (document ++ "\n") with
  | some e =>
    if (Path.ofString path).device?.any (·.refuses document) then .error (unwritten path)
    else .ok e
  | none => .error (unwritable path)

end Patchbay.Store
