import Shorthand.Command.Read
import Shorthand.CommandLine.Invocation
import Shorthand.Completion.Offer
import Shorthand.Report.Data
import Shorthand.Report.Pretty
import Shorthand.Settings.File
import Shorthand.Shell

/-!
Carrying out invocations. Questions are answered from the settings and the surroundings alone; only
`initialise` changes a file.
-/

namespace Shorthand

open Text

structure Surroundings where
  now : ClockReading
  home : Option String
  /-- The bytes on standard input. -/
  input : ByteArray
  terminal : Bool

/-- The completion script of the shell with a name, or how to set it up. -/
def Shell.support (shell : String) (install : Bool) : Except Failure String :=
  match Shell.ofName? shell with
  | none => .error (.shellUnknown shell)
  | some s => .ok (if install then s.instructions else s.script)

/-- The settings of an answer and the surroundings in which it is given. -/
structure Asked where
  settings : Settings
  file : Path
  form : OutputForm
  around : Surroundings

namespace Asked

variable (a : Asked)

def coloured : Bool := a.settings.colour.applies a.around.terminal

def clock : Option String → Except Failure ClockReading
  | none => .ok a.around.now
  | some text =>
    match ClockTime.read text with
    | .ok t => .ok t.toReading
    | .error fault => .error (.clockInvalid text fault)

def command (now : ClockReading) (line : String) : Except Failure Command :=
  (Command.read a.settings.line now line).mapError .lineUnreadable

/-- A command and, if that is asked for, those in it. -/
def parse (line : String) (clock : Option String) (expand : Bool) : Except Failure String := do
  let now ← a.clock clock
  let c ← a.command now line
  if expand && c.kind = .batch then
    let expanded ← (Command.expand a.settings.line now c).mapError .lineUnreadable
    match a.form with
    | .pretty => (Report.expansion a.coloured c expanded).mapError .tasksTooLong
    | .json => return (Report.expansionJson c expanded).toLines
  else
    match a.form with
    | .pretty => (Report.command a.coloured c).mapError .tasksTooLong
    | .json => return c.toJson.toLines

def suggest (text : String) : String :=
  let completions := Completion.offer a.settings.completionLimit.toNat text
  match a.form with
  | .pretty => Report.completions a.coloured completions
  | .json => (Report.completionsJson text completions).toLines

def time (expression : String) (clock : Option String) : Except Failure String := do
  let now ← a.clock clock
  let slot ← (Slot.read now expression.toList).mapError .lineUnreadable
  return match a.form with
    | .pretty => Report.slot a.coloured slot
    | .json => slot.toJson.toLines

/-- The command of an input line; blank lines have none. -/
def inputCommand? (now : ClockReading) (bytes : List UInt8) : Except Failure (Option Command) :=
  match String.fromUTF8? ⟨bytes.toArray⟩ with
  | none => .error (.inputUnreadable .notText)
  | some line =>
    -- A carriage return at the end of the line is a blank and goes with the others.
    let text := trim line.toList
    if text.isEmpty then .ok none else (a.command now (String.ofList text)).map some

/-- What is shown for an input line: its command, as JSON on one line. Blank lines have nothing, and
neither have invalid commands if only valid ones are asked for. -/
def inputReport? (now : ClockReading) (validOnly : Bool) (bytes : List UInt8) :
    Except Failure (Option String) := do
  match ← a.inputCommand? now bytes with
  | none => return none
  | some c =>
    if !validOnly || c.isValid then
      match a.form with
      | .pretty => ((Report.command a.coloured c).mapError .tasksTooLong).map some
      | .json => return some c.toJson.toLine
    else return none

def pipe (clock : Option String) (validOnly : Bool) : Except Failure String := do
  let now ← a.clock clock
  let lines := pieces (· == 10) a.around.input.data.toList
  let reports ← lines.mapM (a.inputReport? now validOnly)
  return String.intercalate "\n" (reports.filterMap id)

def showSettings : String :=
  match a.form with
  | .pretty => a.settings.toText
  | .json => a.settings.toJson.toLines

def answer : Question → Except Failure String
  | .parse line clock expand => a.parse line clock expand
  | .suggest text => .ok (a.suggest text)
  | .pipe clock validOnly => a.pipe clock validOnly
  | .time expression clock => a.time expression clock
  | .showSettings => .ok a.showSettings
  | .settingsPath => .ok a.file.text
  | .completions shell install => Shell.support shell install

end Asked

namespace Invocation

variable {m : Type → Type} [Monad m]

def settingsFile (i : Invocation) (home : Option String) : Path :=
  match i.settings with
  | some file => ⟨file⟩
  | none => Settings.defaultFile home

/-- Writes the default settings into a file; only by force where something is there already. -/
def initialise (files : FileAccess m) (file : Path) (force terminal : Bool) :
    m (Except Failure String) := do
  if (← files.isTaken file) && !force then return .error (.settingsTaken file)
  else
    let defaults : Settings := {}
    let wrote := Style.green.paint (defaults.colour.applies terminal) "Wrote"
    return (← defaults.save files file).map fun _ => wrote ++ " " ++ file.text

/-- Carries out an invocation; the result is what it prints. The settings are needed for questions
only, so that a file without valid settings can be replaced. -/
def run (files : FileAccess m) (around : Surroundings) (i : Invocation) :
    m (Except Failure String) := do
  let file := i.settingsFile around.home
  match i.request with
  | .initSettings force => initialise files file force around.terminal
  | .ask question =>
    match ← Settings.load files file with
    | .error failure => return .error failure
    | .ok settings =>
      return Asked.answer { settings, file, form := i.form.getD settings.form, around } question

def printed (text : String) : String := if text.isEmpty then "" else text ++ "\n"

end Invocation

end Shorthand
