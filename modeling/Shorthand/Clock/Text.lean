import Shorthand.Clock.Time
import Shorthand.Text.Blank
import Shorthand.Text.Digit

/-!
Times of day as text. `toText` writes `HH:MM`; `read` takes one or two digits on either side of a
colon, and blanks before each of them. `length_toChars` says that every written time has five
characters.
-/

namespace Shorthand

open Text

inductive ClockFault where
  /-- A character stands where a digit or the colon is due. -/
  | invalidCharacter
  /-- The hour is past 23 or the minute past 59. -/
  | outOfRange
  /-- The text ends where a digit or the colon is due. -/
  | tooShort
  | tooLong
deriving DecidableEq, Repr

def ClockFault.message : ClockFault → String
  | .invalidCharacter => "input contains invalid characters"
  | .outOfRange => "input is out of range"
  | .tooShort => "premature end of input"
  | .tooLong => "trailing input"

namespace ClockTime

def twoDigits (n : Nat) : List Char := [Nat.digitChar (n / 10), Nat.digitChar (n % 10)]

def toChars (t : ClockTime) : List Char :=
  twoDigits t.hour ++ ':' :: twoDigits t.minute

def toText (t : ClockTime) : String := String.ofList t.toChars

theorem length_toChars (t : ClockTime) : t.toChars.length = 5 := rfl

/-- One number below `bound`: blanks, then one or two ASCII digits. The bound is checked before
anything that follows the number is looked at. -/
def readNumber (bound : Nat) (cs : List Char) : Except ClockFault (Nat × List Char) :=
  match trimStart cs with
  | [] => .error .tooShort
  | c :: rest =>
    if c.isDigit then
      let (run, rest) := match rest with
        | d :: after => if d.isDigit then ([c, d], after) else ([c], rest)
        | [] => ([c], [])
      let n := Nat.ofDigitChars 10 run 0
      if n < bound then .ok (n, rest) else .error .outOfRange
    else .error .invalidCharacter

/-- A time of day: an hour, a colon directly after it, and a minute that ends the text. -/
def readTrimmed (cs : List Char) : Except ClockFault ClockTime := do
  let (hour, rest) ← readNumber 24 cs
  match rest with
  | [] => .error .tooShort
  | ':' :: rest =>
    let (minute, rest) ← readNumber 60 rest
    if rest ≠ [] then .error .tooLong
    else match at? hour minute with
      | some t => .ok t
      | none => .error .outOfRange
  | _ => .error .invalidCharacter

def read (text : String) : Except ClockFault ClockTime := readTrimmed (trim text.toList)

end ClockTime

end Shorthand
