/-!
# Octets

A text is kept as octets, each of them written as the character of its number. Names of files
are octets, which need not be those of a text.
-/
namespace Patchbay.Octets

/-- The octets of a text. -/
def ofText (s : String) : List Char := s.toUTF8.toList.map fun b => Char.ofNat b.toNat

/-- The text of octets. Octets that are no text have a text that begins with a character
from the private area. -/
def toText (cs : List Char) : String :=
  let bytes := ByteArray.mk (cs.map fun c => UInt8.ofNat c.toNat).toArray
  (String.fromUTF8? bytes).getD (String.ofList ('\ue000' :: cs))

end Patchbay.Octets
