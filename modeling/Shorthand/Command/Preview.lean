import Shorthand.Clock.Text
import Shorthand.Command.Basic

/-!
Previews: one sentence that restates what a valid command will do.
-/

namespace Shorthand

open Text

namespace Preview

/-- A count with its noun, which is in the plural unless the count is one. -/
def counted (n : Nat) (noun : String) : String :=
  if n = 1 then "1 " ++ noun else number n ++ " " ++ noun ++ "s"

/-- The start after `lead`, and the end, or else the length; nothing without a start. -/
def time (lead : String) (slot : Slot) : String :=
  match slot.start with
  | none => ""
  | some start =>
    lead ++ " " ++ start.toText ++
      match slot.finish, slot.length with
      | some finish, _ => " to " ++ finish.toText
      | none, some n => " for " ++ integer n ++ " minutes"
      | none, none => ""

def block (kind : BlockKind) (slot : Slot) (tasks : Nat) : String :=
  kind.name ++ " block" ++ time " from" slot ++
    if tasks = 0 then "" else " with " ++ counted tasks "task"

def event (kind : EventKind) (title : Option String) (slot : Slot) (attendees : List String) :
    String :=
  kind.name ++
    (match title with
      | some t => ": " ++ t
      | none => "") ++
    (if slot.start.isSome then time " at" slot else " (time to be scheduled)") ++
    if attendees.isEmpty then "" else " with " ++ String.intercalate ", " attendees

def task (t : Task) : String :=
  "Task: " ++ t.name ++ " (" ++ number t.minutes ++ " minutes)"

def batch (commands : Nat) : String := "Batch of " ++ counted commands "command"

def routine (name : String) : String :=
  if name.isEmpty then "Choose a routine" else "Start routine '" ++ name ++ "'"

def template (name : String) : String :=
  if name.isEmpty then "Choose a template" else "Apply template '" ++ name ++ "'"

def assistant (query : String) : String :=
  if query.isEmpty then "Open the assistant" else "Ask the assistant: " ++ query

def quick (action : QuickAction) (length : Option Int) : String :=
  action.description ++
    match length with
    | some n => " for " ++ integer n ++ " minutes"
    | none => ""

end Preview

end Shorthand
