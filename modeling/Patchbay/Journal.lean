import Patchbay.Text
/-!
# The journal

Work reports what it does as journal entries. Entries are made without regard to the
level in force; the reader keeps those that the level admits.
-/
namespace Patchbay

/-- How much an entry matters. -/
inductive Level where
  | debug
  | info
  | warn
  | error
  deriving DecidableEq, Repr, Inhabited

namespace Level

/-- All levels, the least important first. -/
def all : List Level := [debug, info, warn, error]

/-- The place of a level among all levels. -/
def rank : Level → Nat
  | debug => 0
  | info => 1
  | warn => 2
  | error => 3

/-- The name by which a level is chosen. -/
def name : Level → String
  | debug => "debug"
  | info => "info"
  | warn => "warn"
  | error => "error"

/-- The level of a name. -/
def ofName? (s : String) : Option Level := all.find? (fun l => l.name = s)

/-- The complaint about a name that no level has. -/
def unknownMessage (s : String) : String := Text.untilNul ("Unknown log level: " ++ s)

/-- The mark of a level in front of an entry, five characters wide. -/
def mark : Level → String
  | debug => "DEBUG"
  | info => "INFO "
  | warn => "WARN "
  | error => "ERROR"

/-- Does a threshold let entries of a level pass? -/
def admits (threshold l : Level) : Bool := threshold.rank ≤ l.rank

@[simp] theorem ofName?_name (l : Level) : ofName? l.name = some l := by
  cases l <;> decide

@[simp] theorem admits_self (l : Level) : l.admits l = true := by
  simp [admits]

end Level

/-- One report. -/
structure Entry where
  level : Level
  text : String
  deriving DecidableEq, Repr

/-- The reports of some work, oldest first. -/
abbrev Journal := List Entry

namespace Entry

def debug (text : String) : Entry := ⟨.debug, text⟩

def info (text : String) : Entry := ⟨.info, text⟩

def warn (text : String) : Entry := ⟨.warn, text⟩

def error (text : String) : Entry := ⟨.error, text⟩

/-- The written form of an entry. -/
def line (e : Entry) : String := "[" ++ e.level.mark ++ "] " ++ e.text

end Entry

/-- The entries that a threshold lets pass. -/
def Journal.admitted (j : Journal) (threshold : Level) : Journal :=
  j.filter (fun e => threshold.admits e.level)

@[simp] theorem Journal.admitted_append (i j : Journal) (threshold : Level) :
    Journal.admitted (i ++ j) threshold =
      Journal.admitted i threshold ++ Journal.admitted j threshold := by
  simp [Journal.admitted]

end Patchbay
