import Shorthand.Number.Sum
import Shorthand.Text.Blank
import Shorthand.Text.Cut
import Shorthand.Text.Digit

/-!
Tasks and their notation: a token such as `write-report-45`, or `1-write-report-45` with a place in
the order.
-/

namespace Shorthand

open Text

structure Task where
  name : String
  minutes : Nat
  order : Option Nat := none
deriving DecidableEq, Repr

namespace Task

/-- The words of a name, where hyphens separate words like blanks, with one space between them. -/
def nameOf (cs : List Char) : List Char :=
  joinWith [' '] (words (cs.map fun c => if c = '-' then ' ' else c))

/-- The task of a name and a run of digits: its minutes are positive and fit an unsigned 32-bit
word, and its name is not empty. -/
def ofParts? (name minutes : List Char) : Option Task := do
  let n ← readNatUpTo? maxNat32 minutes
  if n = 0 ∨ nameOf name = [] then none
  else some { name := String.ofList (nameOf name), minutes := n }

def isDigits (cs : List Char) : Bool := !cs.isEmpty && cs.all isDecimal

def isName (cs : List Char) : Bool := !cs.isEmpty && !cs.contains '\n'

/-- The name and the digits of `name-digits`, cut at the last hyphen. -/
def nameAndMinutes? (cs : List Char) : Option (List Char × List Char) := do
  let (name, minutes) ← cutAtLast? '-' cs
  if isName name && isDigits minutes then some (name, minutes) else none

/-- The order and the name of `order-name`, cut at the first hyphen. -/
def orderAndName? (cs : List Char) : Option (List Char × List Char) := do
  let (order, name) ← cutAtFirst? '-' cs
  if isDigits order && isName name then some (order, name) else none

/-- The task that a token without outer blanks notes. A number in front is the order when it fits an
unsigned 32-bit word, even if the rest is then no task, and a part of the name otherwise. -/
def readTrimmed? (token : List Char) : Option Task := do
  let (name, minutes) ← nameAndMinutes? token
  -- The order is decided before the minutes are read, and not taken back.
  let ordered : Option (Nat × List Char) := do
    let (order, name) ← orderAndName? name
    some (← readNatUpTo? maxNat32 order, name)
  match ordered with
  | some (order, name) => (ofParts? name minutes).map fun t => { t with order := some order }
  | none => ofParts? name minutes

def read? (token : List Char) : Option Task := readTrimmed? (trim token)

/-- The minutes of all tasks together, added one by one in an unsigned 32-bit word. -/
def totalMinutes (tasks : List Task) : Except SumFault Nat :=
  tasks.foldlM (fun total t => inNat32 (total + t.minutes)) 0

end Task

end Shorthand
