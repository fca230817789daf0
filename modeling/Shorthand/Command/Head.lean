import Shorthand.Command.Basic
import Shorthand.Slot.Read

/-!
The head of a line: which kind of command its first words ask for, and the words that are left to
say more about it. Everyday words such as `review` are keywords only where they stand alone, before
somebody's name, or before a time.
-/

namespace Shorthand

open Text

inductive Keyword where
  | block
  | blockWord (kind : BlockKind)
  | event
  | eventWord (kind : EventKind)
  | routine
  | task
  | batch
  | template
  | assistant
  | quick (action : QuickAction)
deriving DecidableEq, Repr

def Keyword.ofName? : String → Option Keyword
  | "blk" => some .block
  | "block" => some .block
  | "deep" => some (.blockWord .deepWork)
  | "admin" => some (.blockWord .admin)
  | "break" => some (.blockWord .pause)
  | "exercise" => some (.blockWord .exercise)
  | "personal" => some (.blockWord .personal)
  | "evt" => some .event
  | "event" => some .event
  | "meeting" => some (.eventWord .meeting)
  | "standup" => some (.eventWord .standup)
  | "call" => some (.eventWord .call)
  | "review" => some (.eventWord .review)
  | "rtn" => some .routine
  | "routine" => some .routine
  | "tsk" => some .task
  | "task" => some .task
  | "batch" => some .batch
  | "tmpl" => some .template
  | "template" => some .template
  | "ai" => some .assistant
  | "now" => some (.quick .now)
  | "next" => some (.quick .next)
  | "clear" => some (.quick .clear)
  | "undo" => some (.quick .undo)
  | _ => none

def Keyword.isEverydayWord : Keyword → Bool
  | .blockWord _ => true
  | .eventWord _ => true
  | _ => false

inductive Head where
  /-- A block of which nothing is said. -/
  | bareBlock
  /-- A block of this kind; its time comes first among the words that are left, its tasks follow. -/
  | block (kind : BlockKind) (rest : List (List Char))
  | event (kind : EventKind) (rest : List (List Char))
  | routine (name : List (List Char))
  | task (rest : List (List Char))
  | batch (text : List Char)
  | template (name : List (List Char))
  | assistant (query : List Char)
  /-- An action, with the word that may say for how long. -/
  | quick (action : QuickAction) (time : Option (List Char))
  | plain (text : List Char)
deriving DecidableEq, Repr

def spaced (words : List (List Char)) : List Char := joinWith [' '] words

def resolves (now : ClockReading) (word : List Char) : Except ReadFault Bool :=
  (Slot.read now word).map fun slot => !slot.isEmpty

/-- A keyword claims its line, unless it is an everyday word and the next word is neither a name nor
a time. -/
def Keyword.claims (now : ClockReading) (k : Keyword) (rest : List (List Char)) :
    Except ReadFault Bool :=
  match k.isEverydayWord, rest with
  | true, next :: _ => if next.head? = some '@' then .ok true else resolves now next
  | _, _ => .ok true

/-- The head of a line whose first word is a keyword; `after` is the text behind that word. -/
def Keyword.head (k : Keyword) (after : List Char) (rest : List (List Char)) : Head :=
  match k with
  | .block =>
    match rest with
    | [] => .bareBlock
    | word :: more =>
      match BlockKind.ofWord? word with
      | some kind => .block kind more
      | none => .block .deepWork rest
  | .blockWord kind => .block kind rest
  | .event =>
    match rest with
    | [] => .event .meeting []
    | word :: more =>
      match EventKind.ofWord? word with
      | some kind => .event kind more
      | none => .event .meeting rest
  | .eventWord kind => .event kind rest
  | .routine => .routine rest
  | .task => .task rest
  | .batch => .batch (trim after)
  | .template => .template rest
  | .assistant => .assistant (spaced rest)
  | .quick .now => .quick .now rest.head?
  | .quick action => .quick action none

namespace Head

/-- The question of a line that starts with a slash: the words after a slash that stands alone, and
otherwise the text without the slashes in front. -/
def slashQuery (text first : List Char) (rest : List (List Char)) : List Char :=
  if first = ['/'] then spaced rest else trim (text.dropWhile (· = '/'))

/-- The head of a line without outer blanks. A first word such as `now+1h` is the action and its
length at once. -/
def read (now : ClockReading) (text : List Char) : Except ReadFault Head :=
  match words text with
  | [] => .ok (.plain text)
  | first :: rest =>
    let keyword := lower first
    -- `now+` and no length behind it is no keyword, and there is no other with a plus sign.
    if (Shape.after? ['n', 'o', 'w', '+'] keyword).isSome then
      (resolves now keyword).map fun r => if r then .quick .now (some keyword) else .plain text
    else if keyword.head? = some '/' then .ok (.assistant (slashQuery text first rest))
    else match Keyword.ofName? (String.ofList keyword) with
      | none => .ok (.plain text)
      | some k => (k.claims now rest).map fun c =>
          if c then k.head (text.drop first.length) rest else .plain text

end Head

end Shorthand
