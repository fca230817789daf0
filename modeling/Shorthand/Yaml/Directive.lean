import Shorthand.Text.Digit
import Shorthand.Yaml.Fault
import Shorthand.Yaml.Tag

/-!
Directives, which may stand in front of a document: the version of the language, and handles of
tags.
-/

namespace Shorthand.Yaml

open Text

inductive Directive where
  | version (major minor : Nat)
  | handle (handle : List Char) (tag : Tag)
deriving DecidableEq, Repr

def versionNumber? (cs : List Char) : Option (Nat × Nat) := do
  let digits := cs.takeWhile Char.isDigit
  if 9 < digits.length then none
  return (← readNat? digits, digits.length)

namespace Directive

def version? (cs : List Char) : Option (Directive × Nat) := do
  let (major, n) ← versionNumber? cs
  let '.' :: rest := cs.drop n | none
  let (minor, m) ← versionNumber? rest
  return (.version major minor, n + 1 + m)

def tag? (cs : List Char) : Option (Directive × Nat) := do
  let handle ← handle? cs
  let rest := cs.drop handle.length
  let blanks := rest.takeWhile isSpace
  let text := (rest.drop blanks.length).takeWhile (isTagChar true)
  if blanks.isEmpty || text.isEmpty || !atGap (rest.drop (blanks.length + text.length)) then none
  return (.handle handle (← Tag.unescape? text), handle.length + blanks.length + text.length)

/-- Reads a directive from its percent sign on. Only blanks and a comment may follow it on the line,
and the place reached is the start of the next line. -/
def read (c : Cursor) : Except Fault (Directive × Cursor) := do
  let name := (c.rest.drop 1).takeWhile isNameChar
  let behind := c.forward (1 + name.length)
  if !atGap behind.rest then .error .invalidDirective
  let start := behind.skipWhile isSpace
  let found? := match String.ofList name with
    | "YAML" => version? start.rest
    | "TAG" => tag? start.rest
    | _ => none
  match found? with
  | none => .error .invalidDirective
  | some (directive, length) =>
    let after := (start.forward length).skipToBreak
    if after.atBreak then return (directive, after.next) else .error .invalidDirective

end Directive

end Shorthand.Yaml
