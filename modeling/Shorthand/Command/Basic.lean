import Shorthand.Slot.Basic
import Shorthand.Task
import Shorthand.Text.Lower

/-!
Commands: what a line asks for, together with the kinds of block, event and quick action and the
words that name them.
-/

namespace Shorthand

open Text

inductive CommandKind where
  | block
  | event
  | routine
  | task
  | batch
  | template
  | assistant
  | quick
deriving DecidableEq, Repr

def CommandKind.name : CommandKind → String
  | .block => "block"
  | .event => "event"
  | .routine => "routine"
  | .task => "task"
  | .batch => "batch"
  | .template => "template"
  | .assistant => "ai"
  | .quick => "quick"

def CommandKind.ofName? : String → Option CommandKind
  | "block" => some .block
  | "event" => some .event
  | "routine" => some .routine
  | "task" => some .task
  | "batch" => some .batch
  | "template" => some .template
  | "ai" => some .assistant
  | "quick" => some .quick
  | _ => none

@[simp]
theorem CommandKind.ofName?_name (k : CommandKind) : ofName? k.name = some k := by
  cases k <;> rfl

inductive BlockKind where
  | deepWork
  | admin
  | pause
  | exercise
  | personal
deriving DecidableEq, Repr

def BlockKind.name : BlockKind → String
  | .deepWork => "deep-work"
  | .admin => "admin"
  | .pause => "break"
  | .exercise => "exercise"
  | .personal => "personal"

def BlockKind.ofName? : String → Option BlockKind
  | "deep" => some .deepWork
  | "deep-work" => some .deepWork
  | "admin" => some .admin
  | "break" => some .pause
  | "exercise" => some .exercise
  | "personal" => some .personal
  | _ => none

def BlockKind.ofWord? (word : List Char) : Option BlockKind := ofName? (String.ofList (lower word))

inductive EventKind where
  | meeting
  | standup
  | call
  | review
deriving DecidableEq, Repr

def EventKind.name : EventKind → String
  | .meeting => "meeting"
  | .standup => "standup"
  | .call => "call"
  | .review => "review"

def EventKind.ofName? : String → Option EventKind
  | "meeting" => some .meeting
  | "standup" => some .standup
  | "call" => some .call
  | "review" => some .review
  | _ => none

def EventKind.ofWord? (word : List Char) : Option EventKind := ofName? (String.ofList (lower word))

inductive QuickAction where
  | now
  | next
  | clear
  | undo
deriving DecidableEq, Repr

def QuickAction.name : QuickAction → String
  | .now => "now"
  | .next => "next"
  | .clear => "clear"
  | .undo => "undo"

def QuickAction.description : QuickAction → String
  | .now => "Start now"
  | .next => "Jump to the next block"
  | .clear => "Clear the schedule"
  | .undo => "Undo the last change"

def QuickAction.ofName? : String → Option QuickAction
  | "now" => some .now
  | "next" => some .next
  | "clear" => some .clear
  | "undo" => some .undo
  | _ => none

def QuickAction.ofWord? (word : List Char) : Option QuickAction :=
  ofName? (String.ofList (lower word))

@[simp]
theorem BlockKind.ofName?_name (k : BlockKind) : ofName? k.name = some k := by
  cases k <;> rfl

@[simp]
theorem EventKind.ofName?_name (k : EventKind) : ofName? k.name = some k := by
  cases k <;> rfl

@[simp]
theorem QuickAction.ofName?_name (a : QuickAction) : ofName? a.name = some a := by
  cases a <;> rfl

/-- What a command carries beside its kind, time, tasks and people. -/
structure Notes where
  /-- A block was asked for and no time followed. -/
  needsTime : Bool := false
  /-- What stands in the place of the time is no time expression. -/
  invalidTime : Bool := false
  /-- The start is known, the end and the length are not. -/
  needsDuration : Bool := false
  query : Option String := none
  /-- The commands of a batch in their order, not yet read. -/
  commands : List String := []
  title : Option String := none
deriving DecidableEq, Repr

/-- What a line asks for. A line that cannot be carried out is a command too: it is not valid, and a
hint says what is missing. -/
structure Command where
  kind : CommandKind
  subtype : Option String := none
  slot : Slot := {}
  tasks : List Task := []
  attendees : List String := []
  notes : Notes := {}
  isValid : Bool := false
  hint : Option String := none
  preview : Option String := none
deriving DecidableEq, Repr

end Shorthand
