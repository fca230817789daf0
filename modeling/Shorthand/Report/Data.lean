import Shorthand.Clock.Text
import Shorthand.Command.Basic
import Shorthand.Completion.Basic
import Shorthand.Json.Basic
import Shorthand.Number.Shortest
import Shorthand.Settings.Basic

/-!
Reports for programs: commands, batches, completions, slots and settings as JSON values. What is
unset, empty or false in a command is left out, except whether it is valid.
-/

namespace Shorthand

def optionalField (key : String) (value : Option Json) : List (String × Json) :=
  value.toList.map fun v => (key, v)

def flagField (key : String) (value : Bool) : List (String × Json) :=
  if value then [(key, .bool true)] else []

def listField (key : String) (items : List Json) : List (String × Json) :=
  if items.isEmpty then [] else [(key, .array items)]

def ClockTime.toJson (t : ClockTime) : Json := .string t.toText

def Slot.toJson (s : Slot) : Json :=
  .object <|
    optionalField "start" (s.start.map ClockTime.toJson) ++
    optionalField "end" (s.finish.map ClockTime.toJson) ++
    optionalField "duration" (s.length.map Json.int)

def Task.toJson (t : Task) : Json :=
  .object <|
    [("name", .string t.name), ("duration", .nat t.minutes)] ++
    optionalField "order" (t.order.map Json.nat)

def Notes.fields (n : Notes) : List (String × Json) :=
  flagField "needsTime" n.needsTime ++
  flagField "invalidTime" n.invalidTime ++
  flagField "needsDuration" n.needsDuration ++
  optionalField "query" (n.query.map Json.string) ++
  listField "commands" (n.commands.map Json.string) ++
  optionalField "title" (n.title.map Json.string)

def Command.toJson (c : Command) : Json :=
  .object <|
    [("type", .string c.kind.name)] ++
    optionalField "subtype" (c.subtype.map Json.string) ++
    optionalField "timeStart" (c.slot.start.map ClockTime.toJson) ++
    optionalField "timeEnd" (c.slot.finish.map ClockTime.toJson) ++
    optionalField "duration" (c.slot.length.map Json.int) ++
    listField "tasks" (c.tasks.map Task.toJson) ++
    listField "attendees" (c.attendees.map Json.string) ++
    (if c.notes.fields.isEmpty then [] else [("metadata", .object c.notes.fields)]) ++
    [("isValid", .bool c.isValid)] ++
    optionalField "suggestion" (c.hint.map Json.string) ++
    optionalField "preview" (c.preview.map Json.string)

/-- Real numbers have a point and a digit after it; from `1e+16` on and below `1e-5` they have an
exponent. -/
def realLayout : RealLayout := ⟨-5, 15⟩

def Binary.toJson {f : BinaryFormat} (b : Binary f) : Json :=
  match Numeral.ofBinary? realLayout b with
  | some n => .number n
  | none => .null

/-- A completion. Its confidence is written with the digits of a number of 64 bits. -/
def Completion.toJson (c : Completion) : Json :=
  .object <|
    [("text", .string c.text), ("description", .string c.description)] ++
    optionalField "example" (c.shownIn.map Json.string) ++
    [("confidence", (c.confidence.convert .double).toJson)]

def Settings.toJson (s : Settings) : Json :=
  .object
    [("general", .object
      [("default_output", .string s.form.name), ("color", .string s.colour.name)]),
     ("parser", .object
      [("default_block_minutes", .nat s.line.blockMinutes.toNat),
       ("implicit_task_minutes", .nat s.line.taskMinutes.toNat)]),
     ("suggestions", .object [("limit", .nat s.completionLimit.toNat)])]

namespace Report

def expansionJson (batch : Command) (expanded : List Command) : Json :=
  Json.sorted <| .object
    [("command", batch.toJson), ("count", .nat expanded.length),
      ("expanded", .array (expanded.map Command.toJson))]

def completionsJson (input : String) (completions : List Completion) : Json :=
  Json.sorted <| .object
    [("input", .string input), ("count", .nat completions.length),
      ("suggestions", .array (completions.map Completion.toJson))]

end Report

end Shorthand
