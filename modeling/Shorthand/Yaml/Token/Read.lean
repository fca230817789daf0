import Shorthand.Yaml.Directive
import Shorthand.Yaml.Scalar.Block
import Shorthand.Yaml.Scalar.Plain
import Shorthand.Yaml.Scalar.Quoted
import Shorthand.Yaml.Token.Lexer

/-!
The tokens of a text. Each function on a `Lexer` reads the token at its place and goes on behind it;
`Token.readAll` reads them all.
-/

namespace Shorthand.Yaml

namespace Lexer

def obey (s : Lexer) : Directive → Except Fault Lexer
  | .version major minor =>
    if s.versioned then .error .repeatedDirective
    else if major = 1 ∧ (minor = 1 ∨ minor = 2) then .ok { s with versioned := true }
    else .error .invalidDirective
  | .handle handle tag =>
    if (s.handles.lookup handle).isSome then .error .repeatedDirective
    else .ok { s with handles := s.handles ++ [(handle, tag)] }

def readDirective (s : Lexer) : Except Fault Lexer := do
  let s ← (s.closeBlocks 0).dropKey
  let (directive, place) ← Directive.read s.place
  let s ← s.obey directive
  return { s with place, tokens := .directive :: s.tokens, keyAllowed := false }

def readDocumentMark (t : Token) (s : Lexer) : Except Fault Lexer := do
  let s ← (s.closeBlocks 0).dropKey
  return (s.take 3 t).allowKey false

def readOpening (kind : Collection) (s : Lexer) : Except Fault Lexer := do
  let s ← s.noteKey
  let s := { s with possibleKey := none, outerKeys := s.possibleKey :: s.outerKeys }
  return (s.take 1 (.flowStart kind)).allowKey true

def readClosing (kind : Collection) (s : Lexer) : Except Fault Lexer := do
  let s ← s.dropKey
  let s := match s.outerKeys with
    | [] => s
    | k :: outerKeys => { s with possibleKey := k, outerKeys }
  return (s.take 1 (.flowEnd kind)).allowKey false

def readComma (s : Lexer) : Except Fault Lexer := do
  let s ← s.dropKey
  return (s.take 1 .comma).allowKey true

def readItem (s : Lexer) : Except Fault Lexer := do
  let s ← s.openBlockHere .sequence .misplacedItem
  let s ← s.dropKey
  return (s.take 1 .item).allowKey true

def readKey (s : Lexer) : Except Fault Lexer := do
  let s ← s.openBlockHere .mapping .misplacedKey
  let s ← s.dropKey
  return (s.take 1 .key).allowKey (!s.inFlow)

/-- Reads the colon in front of a value. What may be a key is one now. -/
def readValue (s : Lexer) : Except Fault Lexer := do
  match s.possibleKey with
  | some k =>
    let count := s.tokens.length - k.position
    let s := { s with tokens := s.tokens.insertIdx count .key, possibleKey := none }
    let s := s.openBlock .mapping k.place.column (count + 1)
    return (s.take 1 .value).allowKey false
  | none =>
    let s ← s.openBlockHere .mapping .misplacedValue
    return (s.take 1 .value).allowKey (!s.inFlow)

def anchorName? (s : Lexer) : Option String :=
  let name := (s.place.rest.drop 1).takeWhile isNameChar
  let after := s.place.rest.drop (1 + name.length)
  let ends := atGap after ||
    after.head?.any fun x => ['?', ':', ',', ']', '\x7d', '%', '@', '\x60'].contains x
  if name.isEmpty || !ends then none else some (String.ofList name)

/-- Reads an anchor. Its number is how many names were known before. -/
def readAnchor (s : Lexer) : Except Fault Lexer := do
  let s ← s.noteKey
  let some name := s.anchorName? | .error .invalidAnchor
  let n := s.anchors.length
  let s := { s with anchors := (name, n) :: s.anchors.filter (·.1 ≠ name) }
  return (s.take (1 + name.length) (.anchor n)).allowKey false

def readAlias (s : Lexer) : Except Fault Lexer := do
  let s ← s.noteKey
  let some name := s.anchorName? | .error .invalidAnchor
  let some n := s.anchors.lookup name | .error .unknownAnchor
  return (s.take (1 + name.length) (.alias n)).allowKey false

def readTag (s : Lexer) : Except Fault Lexer := do
  let s ← s.noteKey
  let some (written, length) := WrittenTag.first? s.place.rest | .error .invalidTag
  let after := s.place.rest.drop length
  if !(atGap after || s.inFlow && after.head? = some ',') then .error .invalidTag
  let some tag := written.resolve? s.handles | .error .unknownHandle
  return (s.take length (.tag tag)).allowKey false

def afterScalar (style : ScalarStyle) (text : List Char) (place : Cursor) (keyAllowed : Bool)
    (s : Lexer) : Lexer :=
  { s with place, keyAllowed, tokens := .scalar style (String.ofList text) :: s.tokens }

def readBlock (style : ScalarStyle) (s : Lexer) : Except Fault Lexer := do
  let s ← s.dropKey
  let (text, place) ← readBlockScalar (style = .folded) s.floor s.place
  return s.afterScalar style text place true

def readQuoted (q : Quote) (s : Lexer) : Except Fault Lexer := do
  let s ← s.noteKey
  let (text, place) ← Yaml.readQuoted q s.place
  return s.afterScalar .quoted text place false

/-- Reads a plain scalar. A key may start behind a line break that ends it. -/
def readPlain (s : Lexer) : Except Fault Lexer := do
  let s ← s.noteKey
  let scalar ← PlainScalar.read s.inFlow s.floor s.place
  return s.afterScalar .plain scalar.text scalar.place scalar.broken

def readAt (x : Char) (rest : List Char) (s : Lexer) : Except Fault Lexer :=
  if s.place.column = 0 ∧ x = '%' then s.readDirective
  else if s.place.atStartMark then s.readDocumentMark .documentStart
  else if s.place.atEndMark then s.readDocumentMark .documentEnd
  else if x = '-' ∧ atGap rest then s.readItem
  else if x = '?' ∧ (s.inFlow ∨ atGap rest) then s.readKey
  else if x = ':' ∧ (s.inFlow ∨ atGap rest) then s.readValue
  else match x with
    | '[' => s.readOpening .sequence
    | '\x7b' => s.readOpening .mapping
    | ']' => s.readClosing .sequence
    | '\x7d' => s.readClosing .mapping
    | ',' => s.readComma
    | '*' => s.readAlias
    | '&' => s.readAnchor
    | '!' => s.readTag
    | '\'' => s.readQuoted .single
    | '"' => s.readQuoted .double
    | _ =>
      if x = '|' ∧ !s.inFlow then s.readBlock .literal
      else if x = '>' ∧ !s.inFlow then s.readBlock .folded
      else if startsPlain s.inFlow (x :: rest) then s.readPlain
      else .error .unexpectedCharacter

def finish (s : Lexer) : Except Fault (List Token) := do
  let s ← (s.closeBlocks 0).dropKey
  return s.tokens.reverse

/-- Reads the tokens that are left, at most `fuel` of them. -/
def run : Nat → Lexer → Except Fault (List Token)
  | 0, _ => .error .tooManySteps
  | fuel + 1, s => do
    let s ← s.toToken
    match s.place.rest with
    | [] => s.finish
    | x :: rest => run fuel (← s.readAt x rest)

end Lexer

def Token.readAll (cs : List Char) : Except Fault (List Token) :=
  Lexer.run (cs.length + 1) { place := { rest := cs } }

end Shorthand.Yaml
