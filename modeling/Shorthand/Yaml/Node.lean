import Shorthand.Yaml.Token

/-!
The nodes of a YAML document.
-/

namespace Shorthand.Yaml

structure Properties where
  anchor : Option Nat := none
  /-- The tag, its handle written out. -/
  tag : Option Tag := none
deriving DecidableEq, Repr

/-- A node of a document. An alias names a node by the number of its anchor. -/
inductive Node where
  | scalar (properties : Properties) (style : ScalarStyle) (text : String)
  | sequence (properties : Properties) (items : List Node)
  | mapping (properties : Properties) (entries : List (Node × Node))
  | alias (anchor : Nat)

namespace Node

def empty (properties : Properties) : Node := .scalar properties .plain ""

mutual

/-- The nodes with an anchor, by its number, in the order in which they start. -/
def anchored : Node → List (Nat × Node)
  | .scalar p style text => p.anchor.toList.map fun n => (n, .scalar p style text)
  | .sequence p items =>
    (p.anchor.toList.map fun n => (n, .sequence p items)) ++ anchoredItems items
  | .mapping p entries =>
    (p.anchor.toList.map fun n => (n, .mapping p entries)) ++ anchoredEntries entries
  | .alias _ => []

def anchoredItems : List Node → List (Nat × Node)
  | [] => []
  | n :: rest => anchored n ++ anchoredItems rest

def anchoredEntries : List (Node × Node) → List (Nat × Node)
  | [] => []
  | (key, value) :: rest => anchored key ++ anchored value ++ anchoredEntries rest

end

end Node

end Shorthand.Yaml
