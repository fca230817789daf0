import Shorthand.Settings.Basic
import Shorthand.Text.Digit
import Shorthand.Text.Hex
import Shorthand.Yaml.Document

/-!
The settings file. Its sections and keys may stand in any order or be left out; what is left out
keeps its default, unknown keys are passed over, and a known key stands at most once.
-/

namespace Shorthand

open Text Yaml

inductive SettingsFault where
  /-- The text is not YAML. -/
  | notYaml (fault : Yaml.Fault)
  /-- A node that is no mapping stands where a section does. -/
  | notSection
  /-- A key is no scalar. -/
  | invalidKey
  | repeatedKey (key : String)
  | invalidValue (key : String)
deriving DecidableEq, Repr

def digitsIn? (base : Nat) (cs : List Char) : Option Nat :=
  if cs.isEmpty then none
  else cs.foldlM (fun n c => do
    let d ← hexValue? c
    if d < base then some (base * n + d) else none) 0

/-- The natural number that a scalar spells: decimal without leading zeros, or in base sixteen,
eight or two behind `0x`, `0o` or `0b`, with a plus sign in front or none. -/
def wholeNumber? (cs : List Char) : Option Nat :=
  let unsigned := match cs with
    | '+' :: rest => rest
    | _ => cs
  match unsigned with
  | '0' :: 'x' :: rest => digitsIn? 16 rest
  | '0' :: 'o' :: rest => digitsIn? 8 rest
  | '0' :: 'b' :: rest => digitsIn? 2 rest
  -- With a zero in front, further digits make it a text.
  | '0' :: _ :: _ => none
  | digits => digitsIn? 10 digits

def integerTag : Tag := Tag.ofString "tag:yaml.org,2002:int"

def isNull (text : String) : Bool := ["", "~", "null", "Null", "NULL"].contains text

def localTag? (p : Properties) : Option String := do
  match ← p.tag with
  | [0x21] => some "!"
  | 0x21 :: rest => String.fromUTF8? (ByteArray.mk rest.toArray)
  | _ => none

namespace Settings

variable (d : Document)

/-- The entries of a section; one of which nothing is written has none. -/
def entries? (node : Node) : Option (List (Node × Node)) :=
  match d.resolve? node with
  | some (.mapping _ entries) => some entries
  | some (.scalar _ .plain "") => some []
  | _ => none

def keyText? (node : Node) : Option String :=
  match d.resolve? node with
  | some (.scalar _ _ text) => some text
  | _ => none

def known (keys : List String) : List (Node × Node) → Except SettingsFault (List (String × Node))
  | [] => .ok []
  | (key, value) :: rest => do
    let some text := keyText? d key | .error .invalidKey
    let others ← known keys rest
    if !keys.contains text then return others
    else if (others.lookup text).isSome then .error (.repeatedKey text)
    else return (text, value) :: others

def section? (keys : List String) (node : Node) : Except SettingsFault (List (String × Node)) :=
  match entries? d node with
  | some entries => known d keys entries
  | none => .error .notSection

/-- The whole number of a plain scalar, or of a literal one that is tagged as a number. -/
def number? (node : Node) : Option Nat :=
  match d.resolve? node with
  | some (.scalar p style text) =>
    if style = .plain ∨ style = .literal ∧ p.tag = some integerTag then wholeNumber? text.toList
    else none
  | _ => none

/-- The name that a scalar spells, or that a tag spells in front of nothing. -/
def name? (node : Node) : Option String :=
  match d.resolve? node with
  | some (.scalar p style text) =>
    match localTag? p with
    | some tag => if style = .plain ∧ isNull text then some tag else none
    | none => some text
  | _ => none

def field {α : Type} (entries : List (String × Node)) (key : String) (default : α)
    (read : Node → Option α) : Except SettingsFault α :=
  match entries.lookup key with
  | none => .ok default
  | some node =>
    match read node with
    | some value => .ok value
    | none => .error (.invalidValue key)

def word32? (node : Node) : Option UInt32 := do
  let n ← number? d node
  if n < UInt32.size then some (UInt32.ofNat n) else none

def word64? (node : Node) : Option UInt64 := do
  let n ← number? d node
  if n < UInt64.size then some (UInt64.ofNat n) else none

def subsection (entries : List (String × Node)) (key : String) (keys : List String) :
    Except SettingsFault (List (String × Node)) :=
  match entries.lookup key with
  | none => .ok []
  | some node => section? d keys node

def ofDocument : Except SettingsFault Settings := do
  let defaults : Settings := {}
  let sections ← section? d ["general", "parser", "suggestions"] d.root
  let general ← subsection d sections "general" ["default_output", "color"]
  let form ← field general "default_output" defaults.form fun n =>
    (name? d n).bind OutputForm.ofName?
  let colour ← field general "color" defaults.colour fun n => (name? d n).bind ColourRule.ofName?
  let line ← subsection d sections "parser" ["default_block_minutes", "implicit_task_minutes"]
  let blockMinutes ← field line "default_block_minutes" defaults.line.blockMinutes (word32? d)
  let taskMinutes ← field line "implicit_task_minutes" defaults.line.taskMinutes (word32? d)
  let suggestions ← subsection d sections "suggestions" ["limit"]
  let completionLimit ← field suggestions "limit" defaults.completionLimit (word64? d)
  return { form, colour, line := { blockMinutes, taskMinutes }, completionLimit }

/-- The settings in the text of a file; a text in which nothing is written holds the defaults. -/
def ofText (text : String) : Except SettingsFault Settings :=
  match Yaml.read text with
  | .error fault => .error (.notYaml fault)
  | .ok none => .ok {}
  | .ok (some d) => ofDocument d

/-- The text of a settings file: every section and every key, in a fixed order. -/
def toText (s : Settings) : String :=
  "general:\n" ++
  "  default_output: " ++ s.form.name ++ "\n" ++
  "  color: " ++ s.colour.name ++ "\n" ++
  "parser:\n" ++
  "  default_block_minutes: " ++ number s.line.blockMinutes.toNat ++ "\n" ++
  "  implicit_task_minutes: " ++ number s.line.taskMinutes.toNat ++ "\n" ++
  "suggestions:\n" ++
  "  limit: " ++ number s.completionLimit.toNat ++ "\n"

end Settings

end Shorthand
