import Gamelan.Yaml.Tag

namespace Gamelan.Yaml

/-- How a scalar is written, as far as it bears on what the scalar means. -/
inductive ScalarStyle where
  | plain
  | quoted
  | literal
  | folded
  deriving DecidableEq, Repr

inductive Token where
  | version (major minor : Nat)
  /-- Declares what the tags of a handle begin with. -/
  | tagHandle (handle : String) (start : Tag)
  | documentStart
  | documentEnd
  | blockSequence
  | blockMapping
  | blockEnd
  | flowSequence
  | flowSequenceEnd
  | flowMapping
  | flowMappingEnd
  /-- The dash of a block sequence. -/
  | item
  | comma
  | key
  | value
  | anchor (name : String)
  | aliasTo (name : String)
  /-- A tag whose start its handle stands for; it is complete if the handle is empty. -/
  | tag (handle : String) (suffix : Tag)
  | scalar (style : ScalarStyle) (text : String)
  deriving DecidableEq, Repr

end Gamelan.Yaml
