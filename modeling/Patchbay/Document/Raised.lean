import Patchbay.Json.Parser
import Patchbay.Text
/-!
# What is raised

Whoever finds something out of place raises it, and whatever is being done ends, up to the part that
catches what was raised. Parts catch by kind: there are complaints in words of one's own, arguments
that stand for nothing, and what the library of JSON values and texts raises, which tells kinds of
its own apart.
-/
namespace Patchbay.Document

/-- Something raised. -/
inductive Raised where
  /-- A complaint in words. What the reader of JSON texts has to tell may follow. -/
  | complaint (headline : String) (detail? : Option String := none)
  /-- A name that stands for nothing that was asked for. -/
  | badArgument (message : String)
  /-- A text is not JSON. -/
  | jsonSyntax (e : Json.ParseError)
  /-- A JSON value is of the wrong kind. -/
  | jsonKind (e : Json.Mismatch)
  /-- A number in a JSON text lies beyond the largest double. -/
  | jsonRange
  deriving DecidableEq, Repr

namespace Raised

/-- Is it a complaint? -/
def isOwn : Raised → Bool
  | complaint _ _ => true
  | _ => false

/-- Is it a name that stands for nothing? -/
def isArgument : Raised → Bool
  | badArgument _ => true
  | _ => false

/-- Is it raised by the library of JSON values and texts? -/
def isJson : Raised → Bool
  | jsonSyntax _ | jsonKind _ | jsonRange => true
  | _ => false

/-- Is it raised for a text that is not JSON? -/
def isSyntax : Raised → Bool
  | jsonSyntax _ => true
  | _ => false

/-- The wording, without the part that only the reader of JSON texts can tell. -/
def headline : Raised → String
  | complaint headline _ => headline
  | badArgument message => message
  | jsonSyntax _ | jsonKind _ | jsonRange => ""

/-- What the reader of JSON texts has to tell. -/
def detail? : Raised → Option String
  | complaint _ detail? => detail?
  | badArgument _ => none
  | jsonSyntax e => some e.message
  | jsonKind e => some e.message
  | jsonRange => some Json.ParseError.tooLarge.message

/-- The wording. -/
def message (e : Raised) : String := e.headline ++ e.detail?.getD ""

/-- A complaint in words of one's own. -/
def ofWords (words : String) : Raised := .complaint (Text.untilNul words)

/-- A complaint about what was raised. Some words come before its own. -/
def under (e : Raised) (words : String) : Raised := .complaint (words ++ e.headline) e.detail?

/-- What the reader of JSON texts raises. -/
def ofParse : Json.ParseError → Raised
  | .tooLarge => .jsonRange
  | e => .jsonSyntax e

end Raised
end Patchbay.Document
