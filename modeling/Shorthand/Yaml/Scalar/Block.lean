import Shorthand.Yaml.Fault
import Shorthand.Yaml.Cursor

/-!
Block scalars: the indented lines below a vertical bar, kept as they are, or below a greater-than
sign, joined to paragraphs.
-/

namespace Shorthand.Yaml

inductive Chomping where
  | strip
  /-- The last line keeps its break. -/
  | clip
  | keep
deriving DecidableEq, Repr

def Chomping.ofChar? : Char → Option Chomping
  | '-' => some .strip
  | '+' => some .keep
  | _ => none

def indentOf? (c : Char) : Option Nat :=
  if c.isDigit && c ≠ '0' then some (c.toNat - 0x30) else none

structure BlockHeader where
  chomping : Chomping := .clip
  indent : Option Nat := none
  length : Nat := 0
deriving DecidableEq, Repr

def BlockHeader.ofChars : List Char → BlockHeader
  | a :: rest =>
    match Chomping.ofChar? a, indentOf? a with
    | some chomping, _ =>
      match rest.head?.bind indentOf? with
      | some n => { chomping, indent := some n, length := 2 }
      | none => { chomping, length := 1 }
    | none, some n =>
      match rest.head?.bind Chomping.ofChar? with
      | some chomping => { chomping, indent := some n, length := 2 }
      | none => { indent := some n, length := 1 }
    | none, none => {}
  | [] => {}

structure BlankLines where
  breaks : List Char
  deepest : Nat
  /-- The place of the first character that is no indentation. -/
  place : Cursor
deriving Repr

/-- Reads blank lines on in the text of `c`, up to column `indent` of the line after them if it is
known; `breaks` and `deepest` come from before. -/
def BlankLines.readFrom (indent : Option Nat) :
    List Char → List Char → Nat → Cursor → Except Fault BlankLines
  | [], breaks, deepest, c => .ok ⟨breaks, deepest, c⟩
  | x :: rest, breaks, deepest, c =>
    if isBreak x then readFrom indent rest (breaks ++ [x]) deepest c.next
    else if isSpace x && indent.all (c.column < ·) then
      if x = '\t' then .error .tabInIndentation
      else readFrom indent rest breaks (max deepest (c.column + 1)) c.next
    else .ok ⟨breaks, deepest, c⟩

def BlankLines.read (indent : Option Nat) (c : Cursor) : Except Fault BlankLines :=
  readFrom indent c.rest [] 0 c

structure BlockLine where
  text : List Char
  /-- The break that ends the line; the text may end without one. -/
  ending : List Char
  /-- The breaks of the blank lines that follow. -/
  blanks : List Char
deriving DecidableEq, Repr

namespace BlockLine

def isIndented (l : BlockLine) : Bool := l.text.head?.any isSpace

/-- Reads the lines that are indented by `indent`, at most `fuel` of them. -/
def readAll (indent : Nat) : Nat → Cursor → Except Fault (List BlockLine × Cursor)
  | 0, c => .ok ([], c)
  | fuel + 1, c =>
    if c.column = indent ∧ !c.rest.isEmpty then do
      let text := c.rest.takeWhile (!isBreak ·)
      let c := c.forward text.length
      let blank ← BlankLines.read (some indent) c.next
      let (lines, after) ← readAll indent fuel blank.place
      return (⟨text, c.rest.take 1, blank.breaks⟩ :: lines, after)
    else .ok ([], c)

/-- What stands between two lines. In a folded scalar the break between two lines that are not
indented further is folded. -/
def joint (folded : Bool) (l m : BlockLine) : List Char :=
  if folded && l.ending == ['\n'] && !l.isIndented && !m.isIndented then
    if l.blanks.isEmpty then [' '] else l.blanks
  else l.ending ++ l.blanks

def join (folded : Bool) (chomping : Chomping) : List BlockLine → List Char
  | [] => []
  | [l] =>
    l.text ++ match chomping with
      | .strip => []
      | .clip => l.ending
      | .keep => l.ending ++ l.blanks
  | l :: m :: rest => l.text ++ l.joint folded m ++ join folded chomping (m :: rest)

end BlockLine

/-- Reads a literal or folded scalar from its indicator on, inside of block collections that all
start before column `floor`. Without a stated indentation its first line that is not blank sets it,
and at least column `floor`, or one, is needed. -/
def readBlockScalar (folded : Bool) (floor : Nat) (c : Cursor) :
    Except Fault (List Char × Cursor) := do
  let header := BlockHeader.ofChars (c.rest.drop 1)
  let c := (c.forward (1 + header.length)).skipToBreak
  if !c.atBreak then .error .invalidBlockHeader
  -- A stated indentation counts from the column of the collection around the scalar.
  let known := header.indent.map fun n => floor - 1 + n
  let blank ← BlankLines.read known c.next
  let indent := known.getD (max blank.deepest (max floor 1))
  let (lines, after) ← BlockLine.readAll indent (c.rest.length + 1) blank.place
  let text := match lines with
    | [] => if header.chomping = .keep then blank.breaks else []
    | lines => blank.breaks ++ BlockLine.join folded header.chomping lines
  return (text, after)

end Shorthand.Yaml
