namespace Gamelan.Yaml

/-- A string of bytes rather than of characters, because the escapes of a tag may write any bytes. -/
structure Tag where
  bytes : List UInt8
  deriving DecidableEq, Repr

namespace Tag

def ofString (s : String) : Tag := ⟨s.toUTF8.toList⟩

/-- What the standard tags begin with. -/
def standardStart : String := "tag:yaml.org,2002:"

def standard (name : String) : Tag := .ofString (standardStart ++ name)

def int : Tag := standard "int"

def float : Tag := standard "float"

def bool : Tag := standard "bool"

def null : Tag := standard "null"

/-- The mark that local tags begin with, alone. -/
def mark : Tag := .ofString "!"

/-- A tag of the document's own, whose meaning is not known here. -/
def isLocal (t : Tag) : Bool := mark.bytes.isPrefixOf t.bytes

/-- Whether the tag is a local one with a name that is text, if only an empty one. -/
def isNamed (t : Tag) : Bool := t.isLocal && (String.fromUTF8? ⟨t.bytes.toArray⟩).isSome

end Tag

end Gamelan.Yaml
