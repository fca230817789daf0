import Shorthand.Text.Hex
import Shorthand.Yaml.Fault
import Shorthand.Yaml.Scalar.Gap

/-!
Scalars between quotation marks. Between single ones a quotation mark is written twice; between
double ones a backslash starts an escape.
-/

namespace Shorthand.Yaml

open Text

inductive Quote where
  | single
  | double
deriving DecidableEq, Repr

def Quote.char : Quote → Char
  | .single => '\''
  | .double => '"'

def escapedChar? : Char → Option Char
  | '0' => some '\x00'
  | 'a' => some '\x07'
  | 'b' => some '\x08'
  | 't' => some '\t'
  | '\t' => some '\t'
  | 'n' => some '\n'
  | 'v' => some '\x0b'
  | 'f' => some '\x0c'
  | 'r' => some '\r'
  | 'e' => some '\x1b'
  | ' ' => some ' '
  | '"' => some '"'
  | '/' => some '/'
  | '\\' => some '\\'
  | 'N' => some '\u0085'
  | '_' => some '\u00A0'
  | 'L' => some '\u2028'
  | 'P' => some '\u2029'
  | _ => none

def escapeWidth? : Char → Option Nat
  | 'x' => some 2
  | 'u' => some 4
  | 'U' => some 8
  | _ => none

def hexChar? (digits : List Char) : Option Char := do
  let values ← digits.mapM hexValue?
  char? (values.foldl (fun n d => 16 * n + d) 0)

def escape? : List Char → Option (Char × Nat)
  | [] => none
  | x :: rest =>
    match escapedChar? x with
    | some y => some (y, 1)
    | none => do
      let width ← escapeWidth? x
      let digits := rest.take width
      if digits.length < width then none
      some (← hexChar? digits, width + 1)

inductive QuotedPiece where
  /-- A character, and how many characters spell it. -/
  | char (c : Char) (length : Nat)
  | gap (c : Char)
  | hiddenBreak
  | closing
deriving DecidableEq, Repr

def QuotedPiece.first? (q : Quote) : List Char → Option QuotedPiece
  | [] => none
  | x :: rest =>
    if isSpace x || isBreak x then some (.gap x)
    else match q with
      | .single =>
        if x ≠ '\'' then some (.char x 1)
        else if rest.head? = some '\'' then some (.char '\'' 2)
        else some .closing
      | .double =>
        if x = '"' then some .closing
        else if x ≠ '\\' then some (.char x 1)
        else if rest.head?.any isBreak then some .hiddenBreak
        else (escape? rest).map fun (y, length) => .char y (length + 1)

/-- Reads a quoted scalar on from `c`, at most `fuel` pieces of it; `text` was read before, its last
character first, and `gap` after it. -/
def readQuotedFrom (q : Quote) :
    Nat → List Char → Gap → Cursor → Except Fault (List Char × Cursor)
  | 0, _, _, _ => .error .unclosedQuote
  | fuel + 1, text, gap, c =>
    if c.atDocumentMark || c.rest.isEmpty then .error .unclosedQuote
    else match QuotedPiece.first? q c.rest with
      | none => .error .invalidEscape
      | some .closing => .ok ((gap.folded.reverse ++ text).reverse, c.next)
      | some (.gap x) => readQuotedFrom q fuel text (gap.push x) c.next
      | some (.char x length) =>
        readQuotedFrom q fuel (x :: (gap.folded.reverse ++ text)) {} (c.forward length)
      | some .hiddenBreak =>
        readQuotedFrom q fuel (gap.folded.reverse ++ text) { first := some [] } (c.forward 2)

def readQuoted (q : Quote) (c : Cursor) : Except Fault (List Char × Cursor) :=
  readQuotedFrom q c.rest.length [] {} c.next

end Shorthand.Yaml
