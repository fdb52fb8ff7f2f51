import Patchbay.Octets
import Patchbay.Text
/-!
# Paths

A path is read as the names on the way to a file, from the root or from the working
directory. Empty names and single dots lead nowhere and are left out, so that a file has one
key however it is asked for. A name of two dots is kept: it leads to the directory above.
Names are made of octets, of which every character stands for one.
-/
namespace Patchbay.Store

/-- The way to a file. -/
structure Path where
  fromRoot : Bool
  names : List String
  /-- Can only a directory be meant, because of a slash or a dot at the end? -/
  toDirectory : Bool
  deriving DecidableEq, Repr

namespace Path

/-- Cut a text at its slashes. -/
def pieces : List Char → List (List Char)
  | [] => [[]]
  | c :: s =>
    if c = '/' then [] :: pieces s
    else
      match pieces s with
      | [] => [[c]]
      | p :: ps => (c :: p) :: ps

/-- Does a piece of a path leave the way where it is? -/
def isIdle (piece : List Char) : Bool := piece = [] || piece = ['.']

/-- The name of the directory above. -/
def above : String := ".."

/-- The path that octets stand for. -/
def ofOctets (cs : List Char) : Path :=
  let ps := pieces cs
  { fromRoot := cs.head? = some '/'
    names := (ps.filter (!isIdle ·)).map String.ofList
    toDirectory := ps.getLast?.any isIdle }

/-- The path that a text stands for. It ends at the first NUL character. -/
def ofString (s : String) : Path := ofOctets (Octets.ofText (Text.untilNul s))

/-- The octets of a path, the same for all texts that stand for it. -/
def key (p : Path) : String := (if p.fromRoot then "/" else "") ++ Text.join "/" p.names

/-- The text of a path. -/
def text (p : Path) : String := Octets.toText p.key.toList

/-- The directory that a path leads through last. -/
def parent (p : Path) : Path := { p with names := p.names.dropLast, toDirectory := true }

/-- Does a path lead to the working directory, the root or a directory above? -/
def isUpward (p : Path) : Bool := p.names.all (· = above)

/-- The path of the file whose name goes on with an ending. -/
def beside (p : Path) (ending : String) : Path :=
  { p with names := p.names.dropLast ++ p.names.getLast?.toList.map (· ++ ending) }

/-- Is no name of the path longer than names can be? -/
def hasShortNames (p : Path) : Bool := p.names.all (·.length ≤ 255)

/-- Is the path no longer than that of a catalogue can be? -/
def isShort (p : Path) : Bool := p.key.length < 512

/-- Is a text no longer than the texts of paths can be? -/
def fits (s : String) : Bool := (Text.untilNul s).utf8ByteSize < 4096

/-- The way of a path one step further. Two dots take back the step before, unless there is
none; at the root they lead nowhere. -/
def step (fromRoot : Bool) (names : List String) (name : String) : List String :=
  if name ≠ above then names ++ [name]
  else if names.isEmpty && fromRoot then names
  else if names.all (· = above) then names ++ [name]
  else names.dropLast

/-- The paths on the way of a path, the last one first, when two dots take back a step
without regard to what is there. -/
def stations (p : Path) : List Path :=
  p.names.foldl
    (fun way name =>
      let names := (way.head?.map (·.names)).getD []
      { p with names := step p.fromRoot names name, toDirectory := false } :: way) []

theorem pieces_ne_nil (s : List Char) : pieces s ≠ [] := by
  cases s with
  | nil => simp [pieces]
  | cons c s =>
    simp only [pieces]
    split
    · simp
    · split <;> simp

end Path
end Patchbay.Store
