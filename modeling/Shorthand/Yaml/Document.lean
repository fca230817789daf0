import Shorthand.Yaml.Node.Read
import Shorthand.Yaml.Token.Read

/-!
The document of a YAML text. Aliases stand for the nodes that bear their anchors; `Yaml.read` reads
the only document of a text.
-/

namespace Shorthand.Yaml

/-- A document: its outermost node and the nodes that aliases name. -/
structure Document where
  root : Node
  /-- The anchored nodes; of those with one number the last counts. -/
  targets : List (Nat × Node)

namespace Document

def ofRoot (root : Node) : Document := ⟨root, root.anchored⟩

def resolve? (d : Document) : Node → Option Node
  | .alias n => d.targets.reverse.lookup n
  | node => some node

/-- Reads the outermost node of a document. It need not be written behind a mark of the start, and
only behind such a mark may it follow directives. -/
def readRoot (fuel : Nat) : List Token → Except Fault (Node × List Token)
  | .documentStart :: rest =>
    if rest.isEmpty || rest.head?.any ([.directive, .documentStart, .documentEnd].contains ·) then
      .ok (Node.empty {}, rest)
    else Node.read .block fuel rest
  | tokens => Node.read .block fuel tokens

/-- The only document of a text with these tokens; none if there are no tokens. -/
def ofTokens (tokens : List Token) : Except Fault (Option Document) := do
  if tokens.isEmpty then return none
  let body := tokens.dropWhile (· == .directive)
  if tokens.head? = some .directive ∧ body.head? ≠ some .documentStart then
    .error .missingDocumentStart
  -- A token makes the reading at most three steps deeper.
  let (root, rest) ← readRoot (3 * tokens.length + 3) body
  if (rest.dropWhile (· == .documentEnd)).isEmpty then return some (ofRoot root)
  else .error .severalDocuments

end Document

def read (text : String) : Except Fault (Option Document) := do
  let cs := text.toList
  if !cs.all isAllowed then .error .controlCharacter
  Document.ofTokens (← Token.readAll (unifyBreaks cs))

end Shorthand.Yaml
