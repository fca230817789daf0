import Shorthand.Command.Head
import Shorthand.Command.Preview
import Shorthand.Settings.Basic

/-!
Lines as commands. The head of a line decides which rule reads the rest of it, so two lines with the
same head are the same command.
-/

namespace Shorthand

open Text

namespace Hint

def time : String := "Add a time like 9-11, 930-1030 or 2pm-3:30pm"

def duration : String := "Add an end time or a duration, e.g. now+1h or 10:30-45m"

def task : String := "Use format: tsk <name> <minutes>, e.g. tsk write report 45"

def batch : String :=
  "Separate commands with '/', e.g. batch blk deep 9-11 / evt standup 1130-1145"

def blank : String := "Type a command, e.g. blk deep 9-11"

def needsTime (kind : BlockKind) : String :=
  time ++ " to schedule the " ++ kind.name ++ " block"

def invalidTime (word : String) : String :=
  "Could not read '" ++ word ++ "' as a time. " ++ time

end Hint

namespace Command

def ofTask (t : Task) : Command :=
  { kind := .task, tasks := [t], isValid := true, preview := some (Preview.task t) }

/-- A block of which nothing is said: deep work from the nearest half hour, of the default length,
which is at least a minute and an hour when it does not fit a signed 32-bit word. -/
def bareBlock (defaults : LineDefaults) (now : ClockReading) : Command :=
  let minutes := max defaults.blockMinutes.toNat 1
  let slot := Slot.lasting (ClockTime.ofReading now).roundToHalfHour
    (if minutes ≤ maxInt32 then minutes else 60)
  { kind := .block, subtype := some BlockKind.deepWork.name, slot, isValid := true
    preview := some (Preview.block .deepWork slot 0) }

/-- A block: its time first, then its tasks; words that note no task are passed over. -/
def ofBlock (now : ClockReading) (kind : BlockKind) :
    List (List Char) → Except ReadFault Command
  | [] => .ok
    { kind := .block, subtype := some kind.name, notes := { needsTime := true }
      hint := some (Hint.needsTime kind) }
  | time :: rest => do
    let slot ← Slot.read now time
    if slot.isEmpty then
      return {
        kind := .block, subtype := some kind.name, notes := { invalidTime := true }
        hint := some (Hint.invalidTime (String.ofList time)) }
    else
      let tasks := rest.filterMap Task.read?
      if slot.isComplete then
        return {
          kind := .block, subtype := some kind.name, slot, tasks, isValid := true
          preview := some (Preview.block kind slot tasks.length) }
      else
        return {
          kind := .block, subtype := some kind.name, slot, tasks
          notes := { needsDuration := true }, hint := some Hint.duration }

structure EventParts where
  slot : Slot := {}
  title : List (List Char) := []
  attendees : List (List Char) := []
deriving DecidableEq, Repr

/-- Sorts the words of an event: those that start with `@` are people, nobody where nothing follows
it; the first other word that is a time expression is the time, unless `slot` has one already; the
rest is the title. -/
def EventParts.read (now : ClockReading) (slot : Slot) :
    List (List Char) → Except ReadFault EventParts
  | [] => .ok { slot }
  | ('@' :: name) :: rest => do
    let parts ← EventParts.read now slot rest
    return if name.isEmpty then parts else { parts with attendees := name :: parts.attendees }
  | word :: rest =>
    if slot.start.isNone then do
      let time ← Slot.read now word
      if time.isEmpty then
        let parts ← EventParts.read now slot rest
        return { parts with title := word :: parts.title }
      else EventParts.read now time rest
    else do
      let parts ← EventParts.read now slot rest
      return { parts with title := word :: parts.title }

/-- An event is always valid; what is not said of it is left to be scheduled. -/
def ofEvent (now : ClockReading) (kind : EventKind) (rest : List (List Char)) :
    Except ReadFault Command := do
  let parts ← EventParts.read now {} rest
  let title := if parts.title.isEmpty then none else some (String.ofList (spaced parts.title))
  let attendees := parts.attendees.map String.ofList
  return {
    kind := .event, subtype := some kind.name, slot := parts.slot, attendees, notes := { title }
    isValid := true, preview := some (Preview.event kind title parts.slot attendees) }

/-- A routine or a template by name; without a name it is still to be chosen. -/
def ofNamed (kind : CommandKind) (choose : String) (preview : String → String)
    (name : List (List Char)) : Command :=
  let text := String.ofList (spaced name)
  if text.isEmpty then
    { kind, isValid := true, hint := some choose, preview := some (preview text) }
  else { kind, subtype := some text, isValid := true, preview := some (preview text) }

def ofTaskWords (rest : List (List Char)) : Command :=
  match Task.read? (joinWith ['-'] rest) with
  | some t => ofTask t
  | none => { kind := .task, hint := some Hint.task }

/-- The commands of a batch stand between slashes; blank ones are left out. -/
def batchCommands (text : List Char) : List String :=
  (((pieces (· == '/') text).map trim).filter (!·.isEmpty)).map String.ofList

/-- A batch is valid when it holds a command. -/
def ofBatch (text : List Char) : Command :=
  let commands := batchCommands text
  if commands.isEmpty then { kind := .batch, hint := some Hint.batch }
  else
    { kind := .batch, notes := { commands }, isValid := true
      preview := some (Preview.batch commands.length) }

def ofQuery (query : List Char) : Command :=
  let text := String.ofList query
  { kind := .assistant, notes := { query := some text }, isValid := true
    preview := some (Preview.assistant text) }

/-- A quick action, over the slot that its word describes if it is a time expression. -/
def ofQuick (now : ClockReading) (action : QuickAction) (time : Option (List Char)) :
    Except ReadFault Command := do
  let slot ← match time with
    | some word => Slot.read now word
    | none => .ok {}
  return {
    kind := .quick, subtype := some action.name, slot, isValid := true
    preview := some (Preview.quick action slot.length) }

/-- A line that no keyword claims is a task: its name, a hyphen and its minutes, or else the whole
line as a name for the default number of minutes, which is at least one. -/
def ofPlain (defaults : LineDefaults) (text : List Char) : Command :=
  match Task.nameAndMinutes? text |>.bind fun (name, minutes) => Task.ofParts? name minutes with
  | some t => ofTask t
  | none => ofTask { name := String.ofList text, minutes := max defaults.taskMinutes.toNat 1 }

def ofHead (defaults : LineDefaults) (now : ClockReading) : Head → Except ReadFault Command
  | .bareBlock => .ok (bareBlock defaults now)
  | .block kind rest => ofBlock now kind rest
  | .event kind rest => ofEvent now kind rest
  | .routine name => .ok (ofNamed .routine "Select a routine" Preview.routine name)
  | .task rest => .ok (ofTaskWords rest)
  | .batch text => .ok (ofBatch text)
  | .template name => .ok (ofNamed .template "Select a template" Preview.template name)
  | .assistant query => .ok (ofQuery query)
  | .quick action time => ofQuick now action time
  | .plain text => .ok (ofPlain defaults text)

def blank : Command := { kind := .block, hint := some Hint.blank }

/-- The command that a line asks for, to somebody whose clock shows `now`. -/
def read (defaults : LineDefaults) (now : ClockReading) (line : String) :
    Except ReadFault Command :=
  let text := trim line.toList
  if text.isEmpty then .ok blank else do ofHead defaults now (← Head.read now text)

/-- The commands of a batch, each read as a line; a batch among them is not opened in turn. No other
command holds commands. -/
def expand (defaults : LineDefaults) (now : ClockReading) (c : Command) :
    Except ReadFault (List Command) :=
  if c.kind = .batch then c.notes.commands.mapM (read defaults now) else .ok []

end Command

end Shorthand
