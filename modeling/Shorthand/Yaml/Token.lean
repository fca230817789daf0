import Shorthand.Yaml.Tag

/-!
The tokens of a YAML text. Those of block collections are not written as such: indentation and
colons tell where they start and end.
-/

namespace Shorthand.Yaml

inductive ScalarStyle where
  | plain
  | quoted
  | literal
  | folded
deriving DecidableEq, Repr

inductive Collection where
  | sequence
  | mapping
deriving DecidableEq, Repr

inductive Token where
  | directive
  | documentStart
  | documentEnd
  | blockStart (kind : Collection)
  | blockEnd
  | flowStart (kind : Collection)
  | flowEnd (kind : Collection)
  | comma
  | item
  | key
  | value
  | anchor (number : Nat)
  | alias (number : Nat)
  | tag (tag : Tag)
  | scalar (style : ScalarStyle) (text : String)
deriving DecidableEq, Repr

end Shorthand.Yaml
