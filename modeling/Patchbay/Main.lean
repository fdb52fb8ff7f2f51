import Patchbay.CommandLine
import Patchbay.Store.Archive
import Std.Time.DateTime.Timestamp
/-!
# The program

The program carries out one command line. It reads the files that the command line names,
lets the command do its work on them, and puts back what has changed. To the clock a command
is a single moment, so that evaluations take no time in its profile.
-/
namespace Patchbay.Main

/-- The text of a file, if it can be read. -/
def readText (path : String) : IO (Option String) := do
  try
    return some (← IO.FS.readFile path)
  catch _ =>
    return none

/-- Is there a directory under a path? Only then is there something under the path with a dot
behind it. -/
def isDirectory (path : String) : IO Bool := do
  try
    let _ ← IO.FS.realPath (path ++ "/.")
    return true
  catch _ =>
    return false

/-- Add a directory to a disk, if there is one under the path. -/
def addDirectory (d : Store.Disk) (p : Store.Path) : IO Store.Disk := do
  if ← isDirectory p.text then return { d with directories := p.key :: d.directories }
  else return d

/-- What the text of a file stands for. -/
def fileOf (text : String) : Store.File :=
  match Store.Archive.read? text with
  | some c => .catalogue c
  | none => .text text

/-- Add what lies under a path to a disk. A device has nothing to add. -/
def addPath (d : Store.Disk) (p : Store.Path) : IO Store.Disk := do
  let d ← addDirectory d p.parent
  let d ← addDirectory d p
  if p.device?.isSome then return d
  match ← readText p.text with
  | some text => return d.putAt p (fileOf text)
  | none => return d

/-- The paths of the file that a catalogue is kept in and of its companions, if it is kept in
a file. -/
def cataloguePaths (address : String) : List Store.Path :=
  match Store.Address.ofText address with
  | .error _ => []
  | .ok a =>
    if a.isPrivate then []
    else
      match ({} : Store.Disk).locate? a.name with
      | none => []
      | some p => p :: [.journal, .log, .index, .lock].map p.companion

/-- The files that a command line names, the settings file first. -/
def paths (o : CommandLine.Options) : List Store.Path :=
  [String.ofList (o.configPath.toList.dropWhile (· = '@')), o.configPath, o.graphPath].map
    Store.Path.ofString ++ cataloguePaths o.dbPath

/-- The disk with everything that a command line can ask for. -/
def loadDisk (o : CommandLine.Options) : IO Store.Disk := do
  let d ← (paths o).foldlM addPath {}
  let settings := (Store.loadSettings d o.configPath).toOption.getD {}
  match settings.get? "log_file" with
  | some path => addPath d (.ofString path)
  | none => return d

/-- The text that a file is kept as. -/
def textOf : Store.File → String
  | .text s => s
  | .catalogue c => Store.Archive.write c

/-- The path that belongs to the key of a file. -/
def pathOf (key : String) : String := (Store.Path.ofOctets key.toList).text

/-- Put back the files that have changed, and take away those that are gone. -/
def saveDisk (before after : Store.Disk) : IO Unit := do
  before.files.keys.forM fun key => do
    if !after.files.has key then IO.FS.removeFile (pathOf key)
  after.files.entries.forM fun (key, file) => do
    if before.files.get? key ≠ some file then IO.FS.writeFile (pathOf key) (textOf file)

/-- The present moment. -/
def now : IO Timestamp := do
  let ms := (← Std.Time.Timestamp.now).toMillisecondsSinceUnixEpoch.val
  return ⟨ms.toNat⟩

/-- A supply of identifiers that no other run has. -/
def freshIds : IO IdSupply := do
  let bytes ← IO.getRandomBytes 9
  return { seed := bytes.foldl (fun n b => n * 256 + b.toNat) 0 }

/-- Carry out a command line and show what it came to. -/
def carryOut (args : List String) : IO UInt32 := do
  let options := match CommandLine.Options.parse args {} with
    | .ok (some o) => o
    | _ => {}
  let disk ← loadDisk options
  let moment ← now
  let outcome := CommandLine.execute disk moment (← freshIds) (fun _ => 0) args
  saveDisk disk outcome.disk
  (← IO.getStdout).putStr outcome.out
  (← IO.getStderr).putStr (CommandLine.logText moment outcome.journal ++ outcome.err)
  return UInt32.ofNat outcome.code

end Patchbay.Main

/-- The program. -/
def main (args : List String) : IO UInt32 := Patchbay.Main.carryOut args
