import Shorthand.Clock.Time

/-!
Slots of the day: where one starts, where it ends and how long it is, as far as each is known.
-/

namespace Shorthand

/-- A stretch of the day. A length is counted in minutes and is negative when the end comes before
the start. -/
structure Slot where
  start : Option ClockTime := none
  finish : Option ClockTime := none
  length : Option Int := none
deriving DecidableEq, Repr

namespace Slot

def startingAt (t : ClockTime) : Slot := { start := some t }

def between (t u : ClockTime) : Slot :=
  { start := some t, finish := some u, length := some ((u.minutes : Int) - t.minutes) }

def lasting (t : ClockTime) (length : Nat) : Slot :=
  { start := some t, length := some length }

def isEmpty (s : Slot) : Bool := s.start.isNone && s.finish.isNone && s.length.isNone

def isComplete (s : Slot) : Bool := s.start.isSome && (s.finish.isSome || s.length.isSome)

/-- Only the slot of which nothing is known is empty. -/
theorem isEmpty_iff {s : Slot} : s.isEmpty = true ↔ s = {} := by
  cases s
  simp [isEmpty, and_assoc]

@[simp]
theorem isEmpty_default : ({} : Slot).isEmpty = true := rfl

@[simp]
theorem isEmpty_startingAt (t : ClockTime) : (startingAt t).isEmpty = false := rfl

@[simp]
theorem isEmpty_between (t u : ClockTime) : (between t u).isEmpty = false := rfl

@[simp]
theorem isEmpty_lasting (t : ClockTime) (n : Nat) : (lasting t n).isEmpty = false := rfl

end Slot

end Shorthand
