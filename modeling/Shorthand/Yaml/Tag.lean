import Shorthand.Text.Hex
import Shorthand.Yaml.Cursor

/-!
Tags, which name the type of a node. A tag is written in full between angle brackets, or as a handle
and what follows it; a directive says what a handle stands for.
-/

namespace Shorthand.Yaml

open Text

abbrev Tag := List UInt8

def Tag.ofString (s : String) : Tag := s.toUTF8.toList

/-- Characters of a tag, of which a few stand only between angle brackets and in directives. -/
def isTagChar (bracketed : Bool) (c : Char) : Bool :=
  isNameChar c ||
    [';', '/', '?', ':', '@', '&', '=', '+', '$', '.', '%', '!', '~', '*', '\'', '(', ')'].contains
      c ||
    bracketed && (c = ',' || c = '[' || c = ']')

def bytesAfter? (byte : Nat) : Option Nat :=
  if byte < 0x80 then some 0
  else if byte < 0xC0 then none
  else if byte < 0xE0 then some 1
  else if byte < 0xF0 then some 2
  else if byte < 0xF8 then some 3
  else none

/-- The bytes of a text in which a percent sign and two digits of base sixteen write a byte. The
bytes of one character follow each other; `pending` of them are still to come. -/
def percentBytes? : Nat → List Char → Option (List UInt8)
  | 0, [] => some []
  | _ + 1, [] => none
  | pending, c :: rest =>
    if c = '%' then
      match rest with
      | a :: b :: rest => do
        let byte := (← hexValue? a) * 16 + (← hexValue? b)
        let more ← match pending with
          | 0 => bytesAfter? byte
          | n + 1 => if 0x80 ≤ byte ∧ byte < 0xC0 then some n else none
        return UInt8.ofNat byte :: (← percentBytes? more rest)
      | _ => none
    else if pending = 0 then do return c.toNat.toUInt8 :: (← percentBytes? 0 rest)
    else none
termination_by structural _ cs => cs

/-- The tag that a text spells; a byte of zero ends it. -/
def Tag.unescape? (cs : List Char) : Option Tag :=
  (percentBytes? 0 cs).map (·.takeWhile (· ≠ 0))

inductive WrittenTag where
  | full (text : List Char)
  | short (handle suffix : List Char)
deriving DecidableEq, Repr

/-- The tag at the front of a text that starts with an exclamation mark, and its length. -/
def WrittenTag.first? (cs : List Char) : Option (WrittenTag × Nat) :=
  match cs.drop 1 with
  | '<' :: rest =>
    let text := rest.takeWhile (isTagChar true)
    if text.isEmpty || (rest.drop text.length).head? ≠ some '>' then none
    else some (.full text, text.length + 3)
  | rest =>
    let name := rest.takeWhile isNameChar
    match rest.drop name.length with
    | '!' :: after =>
      let suffix := after.takeWhile (isTagChar false)
      if suffix.isEmpty then none
      else some (.short ('!' :: name ++ ['!']) suffix, name.length + suffix.length + 2)
    | _ =>
      let suffix := rest.takeWhile (isTagChar false)
      some (.short ['!'] suffix, suffix.length + 1)

/-- The handle that a directive defines: exclamation marks around a name, or one alone. -/
def handle? (cs : List Char) : Option (List Char) :=
  match cs with
  | '!' :: rest =>
    let name := rest.takeWhile isNameChar
    if (rest.drop name.length).head? = some '!' then some ('!' :: name ++ ['!'])
    else if name.isEmpty then some ['!'] else none
  | _ => none

abbrev Handles := List (List Char × Tag)

def usualHandles : Handles :=
  [(['!'], Tag.ofString "!"), (['!', '!'], Tag.ofString "tag:yaml.org,2002:")]

/-- The tag that a written tag stands for, if its text is well-formed and its handle known. An
exclamation mark alone stands for itself. -/
def WrittenTag.resolve? (handles : Handles) : WrittenTag → Option Tag
  | .full text => Tag.unescape? text
  | .short handle suffix => do
    let tag ← Tag.unescape? suffix
    if handle = ['!'] ∧ tag = [] then return Tag.ofString "!"
    return (← (handles ++ usualHandles).lookup handle) ++ tag

end Shorthand.Yaml
