import Shorthand.Slot.Basic
import Shorthand.Slot.Shape
import Shorthand.Text.Lower

/-!
Time expressions as slots. A spelling that has a shape but names no time or too long an amount is a
slot of which nothing is known, like a text without a shape.
-/

namespace Shorthand

open Text

inductive ReadFault where
  /-- A group of a compact range, filled up with zeros to four characters, is to be cut behind its
  second byte, and that lies inside a character. -/
  | cutInsideCharacter
deriving DecidableEq, Repr

/-- The text cut behind its first `n` bytes, unless that is inside a character or past the end. -/
def cutAtByte? : Nat → List Char → Option (List Char × List Char)
  | 0, cs => some ([], cs)
  | _ + 1, [] => none
  | n + 1, c :: cs =>
    if c.utf8Size ≤ n + 1 then (cutAtByte? (n + 1 - c.utf8Size) cs).map fun (a, b) => (c :: a, b)
    else none

def fillToFour (cs : List Char) : List Char := List.replicate (4 - cs.length) '0' ++ cs

def readCompactTime (group : List Char) : Except ReadFault (Option ClockTime) :=
  match cutAtByte? 2 (fillToFour group) with
  | none => .error .cutInsideCharacter
  | some (hour, minute) => .ok do ClockTime.at? (← readNat? hour) (← readNat? minute)

def Amount.minutes? (a : Amount) : Option Nat := do
  let n ← readNatUpTo? maxInt32 a.digits
  match a.unit with
  | .minutes => some n
  | .hours => if n * 60 ≤ maxInt32 then some (n * 60) else none

/-- The hour of the day: twelve `am` is midnight, and `pm` adds twelve to the hours before twelve.
-/
def hourOfDay (hour : Nat) : Option Half → Nat
  | some .am => if hour = 12 then 0 else hour
  | some .pm => if hour < 12 then hour + 12 else hour
  | none => hour

def SpokenTime.time? (t : SpokenTime) : Option ClockTime := do
  let hour ← readNat? t.hour
  let minute ← match t.minute with
    | none => some 0
    | some digits => readNat? digits
  ClockTime.at? (hourOfDay hour t.half) minute

namespace Slot

def between? (start finish : Option ClockTime) : Option Slot := do
  some (between (← start) (← finish))

/-- The slot that a shape describes to somebody whose clock shows `now`. Both groups of a compact
range are read, whether or not the first one is a time. -/
def ofShape (now : ClockTime) : Shape → Except ReadFault (Option Slot)
  | .now => .ok (some (startingAt now))
  | .fromNow a => .ok (a.minutes?.map (lasting now))
  | .amount a => .ok (a.minutes?.map (lasting now))
  | .compact start finish => do
    -- Both are cut before either is looked at, so a fault of the second one always shows.
    let start ← readCompactTime start
    let finish ← readCompactTime finish
    return between? start finish
  | .between start finish => .ok (between? start.time? finish.time?)
  | .startAndAmount start a => .ok do some (lasting (← start.time?) (← a.minutes?))

def readChars (now : ClockTime) (cs : List Char) : Except ReadFault Slot :=
  match Shape.read? cs with
  | none => .ok {}
  | some shape => (ofShape now shape).map (·.getD {})

/-- The slot that a time expression describes; letter case and outer blanks do not matter. -/
def read (now : ClockReading) (expression : List Char) : Except ReadFault Slot :=
  readChars (ClockTime.ofReading now) (lower (trim expression))

end Slot

end Shorthand
