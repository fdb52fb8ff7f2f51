import Patchbay.Builtin
import Patchbay.Run.Engine
import Patchbay.Store.Session
import Patchbay.Store.Work
/-!
# The command line

A command line names a command, usually a graph file, and options. Carrying it out reads and
writes files of a disk, prints to the screen and reports to the journal, which goes to the
terminal or to a file. Everything here is a function of the disk, the time and the
arguments.
-/
namespace Patchbay.CommandLine
open Store (Disk)

/-- The name under which the program is called. -/
def programName : String := "flowgraph"

/-- The help text. -/
def usage : String :=
  String.join ((
    ["Usage: " ++ programName ++ " <command> [args] [options]",
      "Commands:",
      "  run <graph.json>          Execute a graph and print the result as JSON",
      "  candidates <graph.json>   List nodes eligible as main node",
      "  validate <graph.json>     Check that every connection is resolved",
      "  save <graph.json>         Store a new version (needs --db and --slug)",
      "  load                      Print the latest stored version (needs --db and --slug)",
      "Options:",
      "  --config FILE        Parameters file (key=value lines, @file syntax)",
      "  -l, --log-level LVL  Log level: debug, info, warn, error (default: info)",
      "  --max-steps N        Flow steps per control-flow run (0 = unlimited)",
      "  --no-profiler        Disable profiler",
      "  --db PATH            Path to graphs SQLite database",
      "  --slug SLUG          Graph slug in the database",
      "  --version NAME       Version name for save",
      "  -h, --help           Show this help"]).map (· ++ "\n"))

/-! ### Failures -/

/-- Why a command fails. -/
inductive Failure where
  | unexpectedArgument (arg : String)
  /-- The number of steps is no number. -/
  | badSteps (e : NumberError)
  | settings (e : SettingsError)
  | unknownLevel (name : String)
  | unwritableLog (path : String)
  | needsGraph (command : String)
  | needsDatabase (command : String)
  | unknownCommand (command : String)
  | negativeSteps
  | negativeVersions
  | load (e : Document.Raised)
  | run (e : Run.Error)
  | store (e : Store.Error)
  deriving DecidableEq, Repr

namespace Failure

/-- The wording of a failure, without the part that only the reader of JSON texts can
tell. -/
def headline (e : Failure) : String :=
  Text.untilNul <| match e with
    | unexpectedArgument arg => "Unexpected argument: " ++ arg
    | badSteps e => (Value.ReadError.badNumber .int e).message
    | settings e => e.message
    | unknownLevel name => Level.unknownMessage name
    | unwritableLog path => "Cannot open log file: " ++ path
    | needsGraph command => "'" ++ command ++ "' needs a graph file"
    | needsDatabase command => "'" ++ command ++ "' needs --db and --slug"
    | unknownCommand command => "Unknown command: " ++ command
    | negativeSteps => "--max-steps must not be negative"
    | negativeVersions => "max_versions_per_graph must not be negative"
    | load e => e.headline
    | run e => e.message
    | store e => e.headline

/-- What the reader of JSON texts has to tell about a failure. -/
def detail? : Failure → Option String
  | load e => e.detail?
  | store e => e.detail?
  | _ => none

/-- The wording of a failure. -/
def message (e : Failure) : String := e.headline ++ e.detail?.getD ""

end Failure

/-! ### Arguments -/

/-- What the arguments ask for. -/
structure Options where
  command : String := ""
  graphPath : String := ""
  configPath : String := ""
  logLevel : Option String := none
  maxSteps : Option Int64 := none
  noProfiler : Bool := false
  dbPath : String := ""
  slug : String := ""
  versionName : Option String := none
  deriving DecidableEq, Repr

/-- The options that take a value. -/
inductive Valued where
  | config
  | logLevel
  | maxSteps
  | db
  | slug
  | version
  deriving DecidableEq, Repr

/-- The option that a word stands for, if it takes a value. -/
def Valued.ofWord? : String → Option Valued
  | "--config" => some config
  | "-l" | "--log-level" => some logLevel
  | "--max-steps" => some maxSteps
  | "--db" => some db
  | "--slug" => some slug
  | "--version" => some version
  | _ => none

namespace Options

/-- The options with a value for one of them. -/
def assign (o : Options) (v : String) : Valued → Except Failure Options
  | .config => .ok { o with configPath := v }
  | .logLevel => .ok { o with logLevel := some v }
  | .maxSteps =>
    match Numeral.read v.toList with
    | .ok (n, _) => .ok { o with maxSteps := some n }
    | .error e => .error (.badSteps e)
  | .db => .ok { o with dbPath := v }
  | .slug => .ok { o with slug := v }
  | .version => .ok { o with versionName := some v }

/-- A word that is neither an option with its value nor a question for help. The first such
word is the command and the second one the graph file. -/
def word (o : Options) (arg : String) : Except Failure Options :=
  if arg = "--no-profiler" then .ok { o with noProfiler := true }
  else if o.command = "" then .ok { o with command := arg }
  else if o.graphPath = "" then .ok { o with graphPath := arg }
  else .error (.unexpectedArgument arg)

/-- What the arguments ask for; nothing if they ask for help. An option that takes a value
and stands at the end is an ordinary word. -/
def parse : List String → Options → Except Failure (Option Options)
  | [], o => .ok (some o)
  | [arg], o => if arg = "-h" ∨ arg = "--help" then .ok none else some <$> o.word arg
  | arg :: next :: rest, o =>
    match Valued.ofWord? arg with
    | some v =>
      match o.assign next v with
      | .ok o => parse rest o
      | .error e => .error e
    | none =>
      if arg = "-h" ∨ arg = "--help" then .ok none
      else
        match o.word arg with
        | .ok o => parse (next :: rest) o
        | .error e => .error e

end Options

/-! ### Commands -/

/-- Something printed. -/
inductive Printed where
  | text (s : String)
  /-- The table of a profile. -/
  | profile (p : Profile)

/-- The text of something printed. -/
def Printed.render : Printed → String
  | text s => s
  | profile p => p.table ++ "\n"

/-- What surrounds a command, and what it did so far. -/
structure Shell where
  disk : Disk
  now : Timestamp
  ids : IdSupply
  watch : Run.Stopwatch
  level : Level := .info
  /-- The file that the journal goes to in place of the terminal. -/
  logFile : Option String := none
  /-- The open catalogue. -/
  session : Option Store.Session := none
  profile : Profile := {}
  registry : Registry := {}
  /-- The reports that went to the terminal. -/
  journal : Journal := []
  printed : List Printed := []

/-- A part of a command. What it did is kept when it fails. -/
abbrev Command := ExceptT Failure (StateM Shell)

/-- Reports as they stand in a file. -/
def logText (now : Timestamp) (j : Journal) : String :=
  String.join (j.map fun e => "[" ++ now.plain ++ "] " ++ e.line ++ "\n")

/-- A line of such a file without its time. -/
def withoutTime (now : Timestamp) (line : String) : String :=
  let time := ("[" ++ now.plain ++ "] ").toList
  if time.isPrefixOf line.toList then String.ofList (line.toList.drop time.length) else line

/-- Report to the journal. The reports that the level admits go where they should at once. A
file that is gone takes no more of them. -/
def Shell.report (s : Shell) (j : Journal) : Shell :=
  let j := j.admitted s.level
  match s.logFile with
  | none => { s with journal := s.journal ++ j }
  | some path =>
    if (s.disk.file? path).isNone then s
    else { s with disk := (s.disk.append? path (logText s.now j)).getD s.disk }

@[inherit_doc Shell.report]
def report (j : Journal) : Command Unit := modify (·.report j)

/-- Print something. -/
def emit (p : Printed) : Command Unit := modify fun s => { s with printed := s.printed ++ [p] }

/-- Print a text. -/
def print (t : String) : Command Unit := emit (.text t)

/-- The result of a part, or its failure. -/
def need {ε α : Type} (failure : ε → Failure) : Except ε α → Command α
  | .ok a => return a
  | .error e => throw (failure e)

/-- An empty graph. -/
def emptyGraph : Command Graph := return .new (← get).ids

/-- The graph of the graph file. -/
def graphOf (o : Options) : Command Graph := do
  let s ← get
  let loaded := Store.loadGraph s.disk s.registry (← emptyGraph) o.graphPath
  report loaded.journal
  need .load loaded.result

/-- The limits of a run, which the arguments can change. -/
def limits (o : Options) (settings : Settings) : Command Run.Options := do
  let limits ← need .settings (Run.Options.ofSettings settings)
  match o.maxSteps with
  | none => return limits
  | some n =>
    if n < 0 then throw .negativeSteps
    return { limits with maxSteps := n.toInt.toNat }

/-- Run a graph and print its result. The answer is the exit code. -/
def runGraph (o : Options) (settings : Settings) : Command Nat := do
  let g ← graphOf o
  let replaceInputs ← need .settings (Graph.replacePolicy settings)
  let limits ← limits o settings
  let s ← get
  let start : Run.State := { graph := { g with replaceInputs }, profile := s.profile }
  let outcome := (Run.Engine.ofGraph g limits).run s.watch start
  report outcome.state.journal.toList
  let result ← need .run outcome.result
  print (result.toJson.print (some 2) ++ "\n")
  let profile := outcome.state.profile
  if profile.enabled then emit (.profile profile)
  return if result.succeeded then 0 else 1

/-- Print the nodes at which a run can begin. -/
def listCandidates (o : Options) : Command Nat := do
  let g ← graphOf o
  (g.candidates.filterMap g.node?).forM fun n =>
    print (n.id ++ "  " ++ n.type ++ "  " ++ n.name ++ "\n")
  return 0

/-- Say whether every connection of a graph is in order. -/
def validateGraph (o : Options) : Command Nat := do
  let g ← graphOf o
  if g.validate then
    print ("Graph '" ++ g.name ++ "' is valid: " ++ Numeral.natText g.members.length ++
      " node(s), " ++ Numeral.natText g.links.length ++ " connection(s)\n")
    return 0
  else
    print ("Graph '" ++ g.name ++ "' has dangling connections\n")
    return 1

/-- Open the catalogue that the arguments name. -/
def openCatalogue (o : Options) : Command Unit := do
  let s ← get
  let (session, disk) := Store.Session.start s.disk o.dbPath
  set { s with disk }
  let session ← need .store session
  modify fun s => { s with session := some session }
  report [Store.Session.readyReport o.dbPath]

/-- The open catalogue, as it is at the moment. -/
def catalogue : Command Store.Catalogue :=
  modifyGet fun s =>
    match s.session with
    | none => ({}, s)
    | some session =>
      let (c, session, disk) := session.look s.disk false
      (c, { s with session := some session, disk })

/-- Keep a changed catalogue. -/
def Shell.keep (s : Shell) (c : Store.Catalogue) : Shell :=
  match s.session with
  | none => s
  | some session =>
    let (session, disk) := session.keep s.disk c
    { s with session := some session, disk }

/-- Do work on the open catalogue. What is there afterwards is kept, also if the work fails after it
has changed something. -/
def change {α : Type} (w : Store.Work (α × Journal)) : Command α := do
  let c ← catalogue
  match w.run .never c with
  | (.ok (a, journal), d) =>
    modify (·.keep d)
    report journal
    return a
  | (.error e, d) =>
    if d ≠ c then modify (·.keep d)
    throw (.store e)

/-- Save a graph as the newest version under a slug, and delete the oldest versions if the
settings limit their number. -/
def saveGraph (o : Options) (settings : Settings) : Command Nat := do
  let g ← graphOf o
  openCatalogue o
  let now := (← get).now
  if !(← need .store ((← catalogue).has o.slug)) then
    let about : Store.Metadata := { slug := o.slug, name := g.name, category := g.category }
    change (.create now about)
  let id ← change (.save now o.slug g o.versionName)
  print ("Saved '" ++ o.slug ++ "' as version " ++ Numeral.natText id ++ "\n")
  let limit ← need .settings (settings.getInt "max_versions_per_graph" 0)
  if limit < 0 then throw .negativeVersions
  if 0 < limit then
    let _ ← change (.prune o.slug limit.toInt.toNat)
  return 0

/-- Print the document of the newest version under a slug. -/
def loadGraph (o : Options) : Command Nat := do
  openCatalogue o
  let c ← catalogue
  let (result, journal) := c.loadLatest (← get).registry (← emptyGraph) o.slug
  report journal
  let g ← need .store result
  print ((Document.ofGraph g).print (some 2) ++ "\n")
  return 0

/-- The settings of the settings file, if one is named. -/
def settingsOf (o : Options) : Command Settings := do
  if o.configPath = "" then return {}
  need .settings (Store.loadSettings (← get).disk o.configPath)

/-- Set up the journal, the profile and the registry. -/
def setUp (o : Options) (settings : Settings) : Command Unit := do
  let name := o.logLevel.getD (settings.getString "log_level" "info")
  match Level.ofName? name with
  | none => throw (.unknownLevel name)
  | some level => modify fun s => { s with level }
  match settings.get? "log_file" with
  | none => pure ()
  | some path =>
    match (← get).disk.append? path "" with
    | none => throw (.unwritableLog path)
    | some disk => modify fun s => { s with disk, logFile := some path }
  let wanted ← need .settings (settings.getBool "enable_performance_monitoring" true)
  let registry := Builtin.registerAll {}
  modify fun s => { s with registry, profile := { enabled := wanted && !o.noProfiler } }
  report [.debug ("Registered " ++ Numeral.natText registry.size ++ " node types")]

/-- Does a command work on the catalogue? -/
def needsDatabase (command : String) : Bool := command = "save" || command = "load"

/-- Carry out what the arguments ask for. -/
def perform (o : Options) : Command Nat := do
  let settings ← settingsOf o
  setUp o settings
  if o.command ≠ "load" ∧ o.graphPath = "" then throw (.needsGraph o.command)
  if needsDatabase o.command ∧ (o.dbPath = "" ∨ o.slug = "") then
    throw (.needsDatabase o.command)
  match o.command with
  | "run" => runGraph o settings
  | "candidates" => listCandidates o
  | "validate" => validateGraph o
  | "save" => saveGraph o settings
  | "load" => loadGraph o
  | command =>
    print usage
    throw (.unknownCommand command)

/-- Carry out a list of arguments. Without a command the help text is printed. -/
def carryOut (args : List String) : Command Nat := do
  match ← (need id (Options.parse args {}) : Command (Option Options)) with
  | none =>
    print usage
    return 0
  | some o =>
    if o.command = "" then
      print usage
      return 1
    perform o

/-! ### Outcomes -/

/-- What a command line came to. -/
structure Outcome where
  code : Nat
  printed : List Printed
  failure : Option Failure
  /-- The reports that go to the terminal. -/
  journal : Journal
  disk : Disk

/-- The text printed. -/
def Outcome.out (o : Outcome) : String := String.join (o.printed.map Printed.render)

/-- The complaint printed. -/
def Outcome.err (o : Outcome) : String :=
  match o.failure with
  | none => ""
  | some e => "Error: " ++ e.message ++ "\n"

/-- The end of a command, and of its work on a catalogue. -/
def finish (s : Shell) (code : Nat) (failure : Option Failure) : Outcome :=
  { code, printed := s.printed, failure, journal := s.journal
    disk := s.session.elim s.disk (·.stop s.disk) }

/-- Carry out a command line. Every failure has the exit code 1. -/
def execute (disk : Disk) (now : Timestamp) (ids : IdSupply) (watch : Run.Stopwatch)
    (args : List String) : Outcome :=
  match (carryOut args).run { disk, now, ids, watch } with
  | (.ok code, s) => finish s code none
  | (.error e, s) => finish s 1 (some e)

end Patchbay.CommandLine
