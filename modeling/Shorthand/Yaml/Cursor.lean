/-!
A place in a YAML text, and moving on from it. Lines are counted so that a key can be told from a
text that goes on over several lines, columns because nesting is indentation, and bytes because the
length of a key is limited.
-/

namespace Shorthand.Yaml

structure Cursor where
  rest : List Char
  line : Nat := 0
  column : Nat := 0
  /-- How many bytes of the text come before. -/
  index : Nat := 0
deriving DecidableEq, Repr

def isBreak (c : Char) : Bool := c = '\n' || c = '\u2028' || c = '\u2029'

def isSpace (c : Char) : Bool := c = ' ' || c = '\t'

def atGap : List Char → Bool
  | [] => true
  | c :: _ => isSpace c || isBreak c

/-- The text with every line break of the older conventions written as a line feed. -/
def unifyBreaks : List Char → List Char
  | '\r' :: '\n' :: rest => '\n' :: unifyBreaks rest
  | '\r' :: rest => '\n' :: unifyBreaks rest
  | '\u0085' :: rest => '\n' :: unifyBreaks rest
  | c :: rest => c :: unifyBreaks rest
  | [] => []

def isAllowed (c : Char) : Bool :=
  c = '\t' || c = '\n' || c = '\r' || c = '\u0085' || (0x20 ≤ c.toNat && c.toNat ≤ 0x7E) ||
    (0xA0 ≤ c.toNat && c.toNat ≤ 0xFFFD) || 0x10000 ≤ c.toNat

def isNameChar (c : Char) : Bool := c.isAlphanum || c = '-' || c = '_'

def isFlowIndicator (c : Char) : Bool :=
  c = ',' || c = '[' || c = ']' || c = '\x7b' || c = '\x7d'

namespace Cursor

def next (c : Cursor) : Cursor :=
  match c.rest with
  | [] => c
  | x :: rest =>
    if isBreak x then
      { rest, line := c.line + 1, column := 0, index := c.index + x.utf8Size }
    else { rest, line := c.line, column := c.column + 1, index := c.index + x.utf8Size }

def forward : Nat → Cursor → Cursor
  | 0, c => c
  | n + 1, c => forward n c.next

/-- Going on leaves the text behind the next character. -/
theorem rest_next (c : Cursor) : c.next.rest = c.rest.tail := by
  unfold next
  split
  · rename_i h
    rw [h, List.tail_nil]
  · rename_i h
    rw [h, List.tail_cons]
    split <;> rfl

/-- Going on leaves the text behind the characters passed. -/
theorem rest_forward (n : Nat) (c : Cursor) : (c.forward n).rest = c.rest.drop n := by
  induction n generalizing c with
  | zero => rfl
  | succ n ih => rw [forward, ih, rest_next, List.drop_tail]

def skipWhile (p : Char → Bool) (c : Cursor) : Cursor :=
  c.forward (c.rest.takeWhile p).length

def skipToBreak (c : Cursor) : Cursor :=
  let c := c.skipWhile isSpace
  if c.rest.head? = some '#' then c.skipWhile (!isBreak ·) else c

def atBreak (c : Cursor) : Bool := c.rest.head?.all isBreak

/-- A mark of three characters stands alone at the start of the line. -/
def atMark (mark : List Char) (c : Cursor) : Bool :=
  c.column == 0 && mark.isPrefixOf c.rest && atGap (c.rest.drop 3)

def atStartMark (c : Cursor) : Bool := c.atMark ['-', '-', '-']

def atEndMark (c : Cursor) : Bool := c.atMark ['.', '.', '.']

def atDocumentMark (c : Cursor) : Bool := c.atStartMark || c.atEndMark

/-- Skips over the text `rest` in front of `c`, in a comment or outside of one; the place reached,
and whether a key may start there. -/
def skipFrom (flow : Bool) : List Char → Bool → Bool → Cursor → Cursor × Bool
  | [], _, keyAllowed, c => (c, keyAllowed)
  | x :: rest, comment, keyAllowed, c =>
    if isBreak x then skipFrom flow rest false (keyAllowed || !flow) c.next
    else if comment || x = '#' then skipFrom flow rest true keyAllowed c.next
    -- A tab in front of a key would leave the indentation open.
    else if x = ' ' || x = '\t' && (flow || !keyAllowed) || x = '\uFEFF' && c.column = 0 then
      skipFrom flow rest false keyAllowed c.next
    else (c, keyAllowed)

/-- The place of the next token behind blanks, comments, line breaks and marks of byte order at the
start of a line, and whether a key may start there: outside of flow collections one may on every
new line. -/
def skip (flow keyAllowed : Bool) (c : Cursor) : Cursor × Bool :=
  skipFrom flow c.rest false keyAllowed c

end Cursor

end Shorthand.Yaml
