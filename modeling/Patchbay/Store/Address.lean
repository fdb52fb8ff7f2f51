import Patchbay.Decimal.Reader
import Patchbay.Octets
/-!
# Addresses of catalogues

A catalogue is asked for by the name of its file or by an address of the form
`file:name?option=value&option=value#remark`. An address can have octets as two hexadecimal
digits after a percent sign, and options that say how the file may be used. An octet of zero
ends the part of the address that it stands in. Some names and options stand for a catalogue
that is kept in no file.
-/
namespace Patchbay.Store

/-- How a file may be used. -/
inductive Access where
  | readOnly
  /-- The file must exist. -/
  | readWrite
  | create
  /-- No file is used at all. -/
  | memory
  deriving DecidableEq, Repr

namespace Access

/-- The access that an option asks for. -/
def ofOption? : String → Option Access
  | "ro" => some readOnly
  | "rw" => some readWrite
  | "rwc" => some create
  | "memory" => some memory
  | _ => none

/-- How much an access permits, compared with the others. -/
def rank : Access → Nat
  | readOnly => 1
  | readWrite => 2
  | create => 3
  | memory => 4

/-- Can an option change one access to another? An access cannot be widened, but every
access can be given up for memory. -/
def canBecome (a b : Access) : Bool := b = memory || b.rank ≤ a.rank

end Access

/-- Why a text is no address. -/
inductive AddressError where
  /-- The address names another machine. -/
  | authority (name : String)
  | noSuchMode (option value : String)
  | notAllowed (value : String)
  | noSuchSystem (name : String)
  deriving DecidableEq, Repr

/-- The wording of a refused address. -/
def AddressError.message : AddressError → String
  | authority name => "invalid uri authority: " ++ name
  | noSuchMode option value => "no such " ++ option ++ " mode: " ++ value
  | notAllowed value => "access mode not allowed: " ++ value
  | noSuchSystem name => "no such vfs: " ++ name

/-- Where a catalogue is kept and how it may be used. -/
structure Address where
  /-- The name, each character of which stands for an octet. -/
  name : String
  access : Access := .create
  /-- The way in which the file is reached. -/
  system : String := "unix"
  /-- Does everybody who asks for the catalogue use it in the same way? -/
  shared : Bool := false
  options : List (String × String) := []
  deriving DecidableEq, Repr

namespace Address

/-! ### Parts -/

/-- The octets of a part of an address. -/
def decode : List Char → List Char
  | '%' :: a :: b :: s =>
    if Decimal.Reader.isHexDigit a && Decimal.Reader.isHexDigit b then
      let n := Decimal.Reader.ofHexDigits [a, b]
      if n = 0 then [] else Char.ofNat n :: decode s
    else '%' :: decode (a :: b :: s)
  | c :: s => c :: decode s
  | [] => []

/-- What stands before a character, and what stands behind it. -/
def cut (c : Char) (s : List Char) : List Char × List Char :=
  (s.takeWhile (· ≠ c), (s.dropWhile (· ≠ c)).drop 1)

/-- Cut a text at all places of a character. -/
def split (c : Char) : List Char → List (List Char)
  | [] => [[]]
  | x :: s =>
    if x = c then [] :: split c s
    else
      match split c s with
      | [] => [[x]]
      | p :: ps => (x :: p) :: ps

/-- The options of an address. An option without a name does not count. -/
def optionsOf (s : List Char) : List (String × String) :=
  let parts := (split '&' s).map fun part =>
    let (name, value) := cut '=' part
    (Octets.toText (decode name), Octets.toText (decode value))
  parts.filter fun o => o.1 ≠ ""

/-- The part of an address that begins with the name of the file. -/
def afterAuthority : List Char → Except AddressError (List Char)
  | '/' :: '/' :: s =>
    let authority := Octets.toText (s.takeWhile (· ≠ '/'))
    if authority = "" ∨ authority = "localhost" then .ok (s.dropWhile (· ≠ '/'))
    else .error (.authority authority)
  | s => .ok s

/-! ### Options -/

/-- Take account of an option. -/
def heed (a : Address) : String × String → Except AddressError Address
  | ("vfs", v) => .ok { a with system := v }
  | ("cache", v) =>
    if v = "shared" ∨ v = "private" then .ok { a with shared := decide (v = "shared") }
    else .error (.noSuchMode "cache" v)
  | ("mode", v) =>
    match Access.ofOption? v with
    | none => .error (.noSuchMode "access" v)
    | some b => if a.access.canBecome b then .ok { a with access := b } else .error (.notAllowed v)
  | _ => .ok a

/-- The ways in which a file can be reached. -/
def systems : List String := ["unix", "unix-none", "unix-dotfile", "unix-excl", "memdb"]

/-- The address that a text stands for. -/
def ofText (text : String) : Except AddressError Address :=
  match Octets.ofText text with
  | 'f' :: 'i' :: 'l' :: 'e' :: ':' :: s => do
    let (name, query) := cut '?' ((← afterAuthority s).takeWhile (· ≠ '#'))
    let options := optionsOf query
    let a ← options.foldlM heed { name := String.ofList (decode name), options }
    if a.system ∈ systems then .ok a else .error (.noSuchSystem a.system)
  | octets => .ok { name := String.ofList octets }

/-- The value of an option that does not limit the access. -/
def option? (a : Address) (name : String) : Option String := a.options.lookup name

/-- Does the value of an option mean yes? A number does unless its lowest octet is zero. -/
def isYes (value : String) : Bool :=
  let ds := value.toList.takeWhile Char.isDigit
  if ds.isEmpty then String.ofList (value.toList.map Char.toLower) ∈ ["on", "yes", "true"]
  else
    let n := Numeral.ofDigits ds
    n < Nat.pow 2 31 && n % 256 ≠ 0

/-- Is the file known not to change while it is used? -/
def isFixed (a : Address) : Bool := (a.option? "immutable").any isYes

/-- Is the catalogue kept under no name at all? -/
def isNameless (a : Address) : Bool := a.name = "" || a.name = ":memory:" || a.access = .memory

/-- Is the catalogue kept in no file? -/
def isPrivate (a : Address) : Bool := a.isNameless || a.system = "memdb"

/-- Is nothing to be written? -/
def isReadOnly (a : Address) : Bool := a.access = .readOnly || (!a.isNameless && a.isFixed)

/-- An octet that does not begin an escape stands for itself. -/
theorem decode_cons_of_ne {c : Char} (h : c ≠ '%') (s : List Char) :
    decode (c :: s) = c :: decode s := by
  rw [decode]
  intro a b rest hc
  exact absurd hc h

/-- A name that is no address stands for itself. -/
theorem ofText_of_ne {text : String} (h : (Octets.ofText text).head? ≠ some 'f') :
    ofText text = .ok { name := String.ofList (Octets.ofText text) } := by
  unfold ofText
  split
  · next hs => simp [hs] at h
  · rfl

end Address
end Patchbay.Store
