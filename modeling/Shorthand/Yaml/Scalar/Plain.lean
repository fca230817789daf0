import Shorthand.Yaml.Fault
import Shorthand.Yaml.Scalar.Gap

/-!
Plain scalars: texts without quotation marks, which end where something else can only start.
-/

namespace Shorthand.Yaml

def isIndicator (c : Char) : Bool :=
  isFlowIndicator c ||
    ['-', '?', ':', '#', '&', '*', '!', '|', '>', '\'', '"', '%', '@', '\x60'].contains c

/-- A plain scalar starts here. A hyphen starts one before a character, and outside of flow
collections so do a question mark and a colon. -/
def startsPlain (flow : Bool) : List Char → Bool
  | [] => false
  | c :: rest =>
    !(isSpace c || isBreak c || isIndicator c) ||
      (c = '-' && !atGap rest) || (!flow && (c = '?' || c = ':') && !atGap rest)

/-- In a flow collection a colon right before an indicator is neither text nor a separator. -/
def isBareColon (flow : Bool) : List Char → Bool
  | ':' :: x :: _ => flow && (isFlowIndicator x || x = '?')
  | _ => false

def endsPlain (flow : Bool) : List Char → Bool
  | [] => true
  | x :: rest => x = ':' && atGap rest || flow && isFlowIndicator x

structure PlainScalar where
  text : List Char
  broken : Bool
  /-- The place behind the scalar and the gap after it. -/
  place : Cursor
deriving Repr

namespace PlainScalar

/-- Reads on in the text of `c`; `text` was read before, its last character first, and `gap` after
it. The scalar ends before a comment, a mark of the document, and outside of flow collections a new
line that is indented less than `floor`. A tab may not stand before that column. -/
def readFrom (flow : Bool) (floor : Nat) :
    List Char → List Char → Gap → Cursor → Except Fault PlainScalar
  | [], text, gap, c => .ok ⟨text.reverse, gap.isBroken, c⟩
  | x :: rest, text, gap, c =>
    if isSpace x || isBreak x then
      if x = '\t' && gap.isBroken && c.column < floor then .error .tabInIndentation
      else readFrom flow floor rest text (gap.push x) c.next
    -- A number sign inside a word is text.
    else if c.atDocumentMark || x = '#' && gap ≠ {} ||
        !flow && gap.isBroken && c.column < floor then
      .ok ⟨text.reverse, gap.isBroken, c⟩
    else if isBareColon flow (x :: rest) then .error .unexpectedCharacter
    else if endsPlain flow (x :: rest) then .ok ⟨text.reverse, gap.isBroken, c⟩
    else readFrom flow floor rest (x :: (gap.folded.reverse ++ text)) {} c.next

def read (flow : Bool) (floor : Nat) (c : Cursor) : Except Fault PlainScalar :=
  readFrom flow floor c.rest [] {} c

end PlainScalar

end Shorthand.Yaml
