import Shorthand.Command.Basic
import Shorthand.Completion.Basic
import Shorthand.Text.Digit

/-!
Offering completions. Each rule looks at a partly typed line and offers what it knows; the offers of
all rules stand in the order of the rules, and the first few are shown.
-/

namespace Shorthand

open Text

structure Partial where
  /-- The line without outer blanks. -/
  base : List Char
  /-- The line in lower case and without the blanks it starts with; those it ends with tell a
  finished word from an unfinished one. -/
  lowered : List Char
  /-- The words of the line in lower case. -/
  words : List (List Char)

def Partial.ofLine (line : List Char) : Partial :=
  let lowered := lower (trimStart line)
  { base := trim line, lowered, words := Text.words lowered }

namespace Partial

def startsWithAny (p : Partial) (heads : List String) : Bool :=
  heads.any fun head => head.toList.isPrefixOf p.lowered

def isOnly (p : Partial) (text : String) : Bool := trimEnd p.lowered == text.toList

def followedBy (p : Partial) (more : String) : String := String.ofList (p.base ++ more.toList)

end Partial

/-- A digit in front of `rest` ends the start of a range, whose finish begins in `rest`; the half of
the day may stand before the hyphen. -/
def isRangeMiddle (rest : List Char) : Bool :=
  match rest with
  | '-' :: d :: _ => isDecimal d
  | 'a' :: 'm' :: '-' :: d :: _ => isDecimal d
  | 'p' :: 'm' :: '-' :: d :: _ => isDecimal d
  | _ => false

def holdsTimeRange : List Char → Bool
  | [] => false
  | c :: rest => isDecimal c && isRangeMiddle rest || holdsTimeRange rest

def holdsNumberRange : List Char → Bool
  | c :: '-' :: d :: rest => isDecimal c && isDecimal d || holdsNumberRange ('-' :: d :: rest)
  | _ :: rest => holdsNumberRange rest
  | [] => false

def bareHour? (word : List Char) : Option Nat :=
  if word.length ≤ 2 then readNatUpTo? 23 word else none

/-- The word notes a task without its minutes: an order, then words of Latin letters, with hyphens
between all of them. -/
def isTaskStub (word : List Char) : Bool :=
  match cutAtFirst? '-' word with
  | some (order, name) =>
    Task.isDigits order && (pieces (· == '-') name).all fun w =>
      !w.isEmpty && w.all fun c => 'a' ≤ c && c ≤ 'z'
  | none => false

namespace Completion

def starters : List Completion :=
  [{ text := "blk deep 9-11", description := "Deep work block from 9 to 11"
     confidence := .ofPercent 100 },
   { text := "evt meeting 2pm-1h", description := "Meeting at 2pm for an hour"
     confidence := .ofPercent 100 },
   { text := "rtn", description := "Start one of your routines", confidence := .ofPercent 100 }]

def blockKinds (p : Partial) : List Completion :=
  if p.isOnly "blk" || p.isOnly "block" then
    [{ text := p.followedBy " deep", description := "Deep work block"
       confidence := .ofPercent 100, shownIn := some (p.followedBy " deep 9-11") },
     { text := p.followedBy " admin", description := "Admin block"
       confidence := .ofPercent 95, shownIn := some (p.followedBy " admin 1400-1500") },
     { text := p.followedBy " break", description := "Break"
       confidence := .ofPercent 90, shownIn := some (p.followedBy " break 15m") }]
  else []

/-- After the kind of a block: ways to write its time, and a task after that. -/
def blockTimesAndTasks (p : Partial) : List Completion :=
  if p.startsWithAny ["blk ", "block "] && p.words.any fun w => (BlockKind.ofWord? w).isSome then
    match p.words.length with
    | 0 => []
    | 1 => []
    | 2 =>
      [{ text := p.followedBy " 930-1030", description := "Compact time range"
         confidence := .ofPercent 100 },
       { text := p.followedBy " 9-11", description := "Whole-hour range"
         confidence := .ofPercent 95 },
       { text := p.followedBy " 2pm-3:30pm", description := "12-hour clock range"
         confidence := .ofPercent 90 }]
    | _ =>
      [{ text := p.followedBy " 1-task-30"
         description := "Add numbered tasks as order-name-minutes"
         confidence := .ofPercent 90, shownIn := some "blk deep 9-11 1-outline-30 2-draft-60" }]
  else []

/-- The text that the kind and the time of an event follow: an unfinished first word gives way to
the keyword. -/
def eventBase (p : Partial) : List Char :=
  if 1 < p.words.length || p.words == ["evt".toList] || p.words == ["event".toList] then p.base
  else "evt".toList

def eventDetails (p : Partial) : List Completion :=
  if p.startsWithAny ["ev", "meet", "call"] then
    if p.words.any fun w => (EventKind.ofWord? w).isSome then
      if 2 ≤ p.words.length then
        [{ text := p.followedBy " @name", description := "Invite attendees with @name"
           confidence := .ofPercent 85, shownIn := some "evt meeting 2-3 @alex @sam" }]
      else []
    else
      [{ text := String.ofList (eventBase p ++ " meeting 2-3".toList)
         description := "Meeting from 2 to 3", confidence := .ofPercent 90 }]
  else []

def hourFrom (before : List Char) (hour : Nat) (minute shown : String) (percent : Nat) :
    Completion :=
  { text := String.ofList before ++ number hour ++ minute ++ "-" ++ number ((hour + 1) % 24) ++
      minute
    description := "One hour from " ++ number hour ++ shown, confidence := .ofPercent percent }

/-- After a bare hour: the hour from there on, unless the line holds a range of times already. -/
def rangeFromHour (p : Partial) : List Completion :=
  if holdsTimeRange p.lowered then []
  else match p.words.getLast? with
    | none => []
    | some last =>
      match bareHour? last with
      | none => []
      | some hour =>
        let before := p.base.take (p.base.length - last.length)
        [hourFrom before hour "" ":00" 90, hourFrom before hour ":30" ":30" 85]

def taskMinutes (p : Partial) : List Completion :=
  if holdsNumberRange p.lowered then []
  else match p.words.getLast? with
    | some last =>
      if isTaskStub last then
        [{ text := p.followedBy "-30", description := "Set the task length in minutes"
           confidence := .ofPercent 85 }]
      else []
    | none => []

def routines (p : Partial) : List Completion :=
  if p.startsWithAny ["rtn", "routine"] then
    [{ text := "rtn", description := "Pick from your routines", confidence := .ofPercent 95 },
     { text := "rtn morning", description := "Start a routine by name"
       confidence := .ofPercent 90, shownIn := some "rtn evening shutdown" }]
  else []

def fromNow (p : Partial) : List Completion :=
  if p.startsWithAny ["now"] then
    [{ text := "now+1h", description := "Start now for an hour", confidence := .ofPercent 95 },
     { text := "now+30m", description := "Start now for 30 minutes"
       confidence := .ofPercent 90 }]
  else []

def assistant (p : Partial) : List Completion :=
  if p.isOnly "/" || p.startsWithAny ["ai"] then
    [{ text := "ai plan my afternoon", description := "Ask the AI assistant"
       confidence := .ofPercent 90, shownIn := some "/ what should I focus on next?" }]
  else []

def rules : List (Partial → List Completion) :=
  [blockKinds, blockTimesAndTasks, eventDetails, rangeFromHour, taskMinutes, routines, fromNow,
    assistant]

def mostOffered : Nat := 3

def effectiveLimit (limit : Nat) : Nat := min limit mostOffered

/-- The first completions for a line, at most `limit` and never more than three. A line of at most
one character gets the starters. -/
def offer (limit : Nat) (line : String) : List Completion :=
  let cs := line.toList
  let all :=
    if (trim cs).length ≤ 1 then starters
    else rules.flatMap fun rule => rule (Partial.ofLine cs)
  all.take (effectiveLimit limit)

end Completion

end Shorthand
