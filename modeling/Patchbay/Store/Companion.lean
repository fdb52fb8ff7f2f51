import Patchbay.Store.Disk
/-!
# Companions of a catalogue

Files beside that of a catalogue tell of its use: a lock says that somebody has the file, a
journal that a change was broken off, and a log that changes are kept apart from the file.
Which of them count depends on the way in which the catalogue is reached.
-/
namespace Patchbay.Store

/-- What a file beside that of a catalogue is for. -/
inductive Companion where
  /-- What has to be taken back if a change is broken off. -/
  | journal
  /-- The changes that are kept apart. -/
  | log
  /-- The index of the log. -/
  | index
  /-- Somebody has the file. -/
  | lock
  deriving DecidableEq, Repr

/-- What the name of a companion ends in. -/
def Companion.ending : Companion → String
  | journal => "-journal"
  | log => "-wal"
  | index => "-shm"
  | lock => ".lock"

/-- The path of a companion. -/
def Path.companion (p : Path) (k : Companion) : Path := p.beside k.ending

namespace Disk

/-- The path of the file that the name in an address stands for. The name leads nowhere if
its way is too long, if there is a too long name on it that a directory is asked for, if it
goes on behind a file, or if it ends at the root. -/
def locate? (d : Disk) (name : String) : Option Path :=
  let asked := Path.ofOctets name.toList
  let way := asked.stations
  let blocked (p : Path) : Bool :=
    !p.isShort || (!p.hasShortNames && d.isDirectory p.parent) ||
      (p.names ≠ [] && (d.fileAt? p.parent).isSome)
  let last := way.head?.getD asked
  if way.any blocked || (last.fromRoot && last.names = []) then none else some last

/-- The text at the end of a way; none if there is no file. -/
def textAt (d : Disk) (p : Path) : String := ((d.fileAt? p).map File.content).getD ""

/-- Take away the companions of a file that keep changes apart. -/
def removeLog (d : Disk) (p : Path) : Disk :=
  (d.removeAt (p.companion .log)).removeAt (p.companion .index)

end Disk

/-- Is a text so short that the file counts as empty? -/
def isBlank (s : String) : Bool := s.utf8ByteSize ≤ 1

/-- The catalogue of a file; an empty file becomes one. -/
def File.catalogue? : File → Except Obstacle Catalogue
  | .catalogue c => .ok c
  | .text s => if isBlank s then .ok {} else .error .notCatalogue

/-- The catalogue of the file at the end of a way. -/
def Disk.catalogueAt (d : Disk) (p : Path) : Except Obstacle Catalogue :=
  ((d.fileAt? p).getD (.text "")).catalogue?

namespace Address

/-- Is nothing to say that somebody has the catalogue? -/
def isUnlocked (a : Address) : Bool := (a.option? "nolock").any isYes

/-- Does a file say that somebody has the catalogue? -/
def locksByFile (a : Address) : Bool := a.system = "unix-dotfile" && !a.isUnlocked

/-- Is there nothing that says that somebody has the catalogue? -/
def locksNothing (a : Address) : Bool := a.system = "unix-none" || a.isUnlocked

/-- Can changes be kept apart from the file? -/
def canLog (a : Address) : Bool := a.system ≠ "unix-dotfile" && !a.locksNothing

/-- Is the index of the log a file, too? -/
def indexesInFile (a : Address) : Bool := a.system ≠ "unix-excl"

/-- Do all who ask for a catalogue that is kept nowhere under this name get the same one? -/
def isStored (a : Address) : Bool :=
  !a.isNameless && 1 < a.name.length && a.name.toList.head? ∈ [some '/', some '\\']

end Address

end Patchbay.Store
