import Polytype.Yaml.Scalar

/-!
# Tokens of a YAML text

The marks, names and scalars of a text in order, and with them the starts and ends of block
collections, which the text shows by indentation only.
-/

namespace Polytype.Yaml

/-- What a token is. -/
inductive TokenKind where
  | finish
  | documentStart
  | documentEnd
  /-- A directive that names the version of the language. -/
  | version (major minor : Nat)
  /-- A directive that gives a tag handle its meaning. -/
  | tagHandle (handle meaning : String)
  /-- A block sequence or mapping starts, or the innermost one ends. -/
  | blockSequence
  | blockMapping
  | blockEnd
  | flowSequence
  | flowSequenceEnd
  | flowMapping
  | flowMappingEnd
  | item
  | comma
  /-- A mapping's key follows, then its value. -/
  | key
  | value
  | anchor (name : String)
  | reference (name : String)
  /-- A tag: its handle, empty for one written in full, and what follows the handle. -/
  | tag (handle suffix : String)
  | scalar (style : Style) (text : String)
deriving DecidableEq

/-- A token with the places where it starts and ends. -/
structure Token where
  kind : TokenKind
  start : Mark
  stop : Mark
deriving DecidableEq

end Polytype.Yaml
