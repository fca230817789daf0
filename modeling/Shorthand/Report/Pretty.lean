import Shorthand.Clock.Text
import Shorthand.Command.Basic
import Shorthand.Completion.Basic
import Shorthand.Report.Style

/-!
Reports for people: commands, batches, completions and slots as lines of text, with or without
colours.
-/

namespace Shorthand

open Text

namespace Report

def endLines (lines : List String) : String := String.join (lines.map (· ++ "\n"))

def slotParts (coloured : Bool) (slot : Slot) : List String :=
  (slot.start.toList.map fun t => Style.cyan.paint coloured "Start:" ++ " " ++ t.toText) ++
  (slot.finish.toList.map fun t => Style.cyan.paint coloured "End:" ++ " " ++ t.toText) ++
  (slot.length.toList.map fun n =>
    Style.cyan.paint coloured "Duration:" ++ " " ++ integer n ++ " min")

def slotLine (coloured : Bool) (slot : Slot) : String :=
  String.intercalate "  " (slotParts coloured slot)

def header (coloured : Bool) (c : Command) : String :=
  Style.bold.paint coloured c.kind.name ++
    (match c.subtype with
      | some s => " (" ++ Style.cyan.paint coloured s ++ ")"
      | none => "") ++
    "  [" ++
    (if c.isValid then Style.green.paint coloured "valid"
      else Style.red.paint coloured "invalid") ++
    "]"

def taskLine (t : Task) : String :=
  "    " ++
    (match t.order with
      | some n => number n ++ "."
      | none => "-") ++
    " " ++ t.name ++ " (" ++ number t.minutes ++ " min)"

def taskLines (coloured : Bool) (tasks : List Task) (total : Nat) : List String :=
  if tasks.isEmpty then []
  else
    ("  " ++ Style.yellow.paint coloured "Tasks:" ++ " " ++ number total ++ " min total") ::
      tasks.map taskLine

def commandLines (coloured : Bool) (commands : List String) : List String :=
  if commands.isEmpty then []
  else
    ("  " ++ Style.dimmed.paint coloured "Commands:") ::
      commands.zipIdx.map fun (text, i) => "    " ++ number (i + 1) ++ ". " ++ text

def flags (notes : Notes) : List String :=
  (if notes.needsTime then ["needs time"] else []) ++
  (if notes.invalidTime then ["invalid time"] else []) ++
  (if notes.needsDuration then ["needs duration"] else [])

def labelled (coloured : Bool) (style : Style) (label text : String) : String :=
  "  " ++ style.paint coloured label ++ " " ++ text

/-- The lines about a command whose tasks take `total` minutes; what it lacks has no line. -/
def commandReport (coloured : Bool) (c : Command) (total : Nat) : List String :=
  [header coloured c] ++
  (c.preview.toList.map (labelled coloured .boldCyan "Preview:")) ++
  (if (slotLine coloured c.slot).isEmpty then [] else ["  " ++ slotLine coloured c.slot]) ++
  taskLines coloured c.tasks total ++
  (if c.attendees.isEmpty then []
    else [labelled coloured .magenta "Attendees:"
      (String.intercalate " " (c.attendees.map ("@" ++ ·)))]) ++
  (c.notes.title.toList.map (labelled coloured .dimmed "Title:")) ++
  (c.notes.query.toList.map (labelled coloured .blue "Query:")) ++
  commandLines coloured c.notes.commands ++
  (if (flags c.notes).isEmpty then []
    else [labelled coloured .red "Flags:" (String.intercalate ", " (flags c.notes))]) ++
  (c.hint.toList.map (labelled coloured .boldYellow "Hint:"))

/-- The report on a command. There is none if its tasks take more minutes than can be summed. -/
def command (coloured : Bool) (c : Command) : Except SumFault String :=
  (Task.totalMinutes c.tasks).map fun total => endLines (commandReport coloured c total)

/-- The command in place `i` of a batch, below a rule. -/
def member (coloured : Bool) : Command × Nat → Except SumFault String
  | (c, i) => (command coloured c).map fun report =>
    Style.dimmed.paint coloured (String.ofList (List.replicate 40 '─')) ++ "\n" ++
      Style.dimmed.paint coloured ("[" ++ number (i + 1) ++ "]") ++ " " ++ report

/-- A batch, and the commands in it below a rule each and numbered from one. -/
def expansion (coloured : Bool) (batch : Command) (expanded : List Command) :
    Except SumFault String := do
  let report ← command coloured batch
  let members ← expanded.zipIdx.mapM (member coloured)
  return report ++ String.join members

/-- A confidence in per cent, rounded to a whole number whose half goes to the even neighbour, at
least three characters wide. -/
def percent (c : Confidence) : String :=
  let digits := match c.times 100 with
    | .finite negative units =>
      (if negative then "-" else "") ++
        number (divRound units (Nat.pow 2 BinaryFormat.single.scale))
    | .infinite negative => if negative then "-inf" else "inf"
  String.ofList (List.replicate (3 - digits.length) ' ') ++ digits ++ "%"

/-- A completion, and below it the text in use if there is one. -/
def completionLines (coloured : Bool) (c : Completion) : List String :=
  (Style.dimmed.paint coloured (percent c.confidence) ++ "  " ++ Style.bold.paint coloured c.text ++
    "  " ++ c.description) ::
    c.shownIn.toList.map fun text => "      " ++ Style.dimmed.paint coloured "e.g." ++ " " ++ text

def completions (coloured : Bool) (cs : List Completion) : String :=
  if cs.isEmpty then Style.dimmed.paint coloured "No suggestions"
  else endLines (cs.flatMap (completionLines coloured))

def slot (coloured : Bool) (s : Slot) : String :=
  if s.isEmpty then Style.red.paint coloured "✗" ++ " not a recognized time expression"
  else Style.green.paint coloured "✓" ++ " " ++ slotLine coloured s

end Report

end Shorthand
