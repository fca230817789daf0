import Shorthand.Text.Blank
import Shorthand.Text.Digit

/-!
The shapes of time expressions. Each reader recognises one shape by its spelling alone, digits of
any script included; whether the numbers are times and lengths is decided afterwards, so that a
spelling of one shape is never tried as another.
-/

namespace Shorthand

open Text

inductive TimeUnit where
  | hours
  | minutes
deriving DecidableEq, Repr

/-- A run of digits with a unit after it, such as `45m`. -/
structure Amount where
  digits : List Char
  unit : TimeUnit
deriving DecidableEq, Repr

inductive Half where
  | am
  | pm
deriving DecidableEq, Repr

/-- A time the way people write it: one or two digits for the hour, two digits for the minute after
a colon if there is one, and the half of the day if it is named. -/
structure SpokenTime where
  hour : List Char
  minute : Option (List Char)
  half : Option Half
deriving DecidableEq, Repr

inductive Shape where
  /-- The word `now`. -/
  | now
  /-- `now+1h`. -/
  | fromNow (amount : Amount)
  /-- `45m`. -/
  | amount (amount : Amount)
  /-- `930-1030`. -/
  | compact (start finish : List Char)
  /-- `9-11`, `9:30am - 11pm`, `9 11`. -/
  | between (start finish : SpokenTime)
  /-- `10:30-45m`. -/
  | startAndAmount (start : SpokenTime) (amount : Amount)
deriving DecidableEq, Repr

def TimeUnit.ofChar? : Char → Option TimeUnit
  | 'h' => some .hours
  | 'm' => some .minutes
  | _ => none

def Amount.read? (cs : List Char) : Option Amount :=
  match cs.dropWhile isDecimal with
  | [unit] =>
    if cs.takeWhile isDecimal = [] then none
    else (TimeUnit.ofChar? unit).map fun u => ⟨cs.takeWhile isDecimal, u⟩
  | _ => none

def Half.read? : List Char → Option (Half × List Char)
  | 'a' :: 'm' :: rest => some (.am, rest)
  | 'p' :: 'm' :: rest => some (.pm, rest)
  | _ => none

def readFace? (cs : List Char) : Option (List Char × Option (List Char) × List Char) :=
  let hour := cs.takeWhile isDecimal
  if hour.length = 1 ∨ hour.length = 2 then
    match cs.dropWhile isDecimal with
    | ':' :: rest =>
      let minute := rest.takeWhile isDecimal
      if minute.length = 2 then some (hour, some minute, rest.dropWhile isDecimal) else none
    | rest => some (hour, none, rest)
  else none

def isGap (c : Char) : Bool := isBlank c || c == '-'

/-- A time at the front of a text, and what follows it. Blanks before the half of the day belong to
the time only when the half is named. -/
def SpokenTime.read? (cs : List Char) : Option (SpokenTime × List Char) := do
  let (hour, minute, rest) ← readFace? cs
  match Half.read? (trimStart rest) with
  | some (half, after) => some (⟨hour, minute, some half⟩, after)
  | none => some (⟨hour, minute, none⟩, rest)

/-- The whole text is one time, with blanks after it if it names no half of the day. -/
def SpokenTime.readLast? (cs : List Char) : Option SpokenTime := do
  let (time, rest) ← SpokenTime.read? cs
  if (if time.half.isSome then rest else trimStart rest) = [] then some time else none

namespace Shape

def after? (head cs : List Char) : Option (List Char) :=
  if head.isPrefixOf cs then some (cs.drop head.length) else none

def readNow? (cs : List Char) : Option Shape :=
  if cs = ['n', 'o', 'w'] then some .now else none

def readFromNow? (cs : List Char) : Option Shape := do
  let rest ← after? ['n', 'o', 'w', '+'] cs
  let amount ← Amount.read? rest
  some (.fromNow amount)

def readAmount? (cs : List Char) : Option Shape := do
  let amount ← Amount.read? cs
  some (.amount amount)

def isCompactGroup (cs : List Char) : Bool :=
  (cs.length == 3 || cs.length == 4) && cs.all isDecimal

def readCompact? (cs : List Char) : Option Shape :=
  let start := cs.takeWhile isDecimal
  match cs.dropWhile isDecimal with
  | '-' :: finish =>
    if isCompactGroup start && isCompactGroup finish then some (.compact start finish) else none
  | _ => none

def readBetween? (cs : List Char) : Option Shape := do
  let (start, rest) ← SpokenTime.read? cs
  if rest.takeWhile isGap = [] then none
  let finish ← SpokenTime.readLast? (rest.dropWhile isGap)
  some (.between start finish)

/-- A time and an amount with a hyphen between them, and no blank between the half of the day and
the hyphen. -/
def readStartAndAmount? (cs : List Char) : Option Shape := do
  let (start, rest) ← SpokenTime.read? cs
  match if start.half.isSome then rest else trimStart rest with
  | '-' :: rest =>
    let amount ← Amount.read? rest
    some (.startAndAmount start amount)
  | _ => none

/-- The readers of the shapes, each of a different one. -/
def readers : List (List Char → Option Shape) :=
  [readNow?, readFromNow?, readAmount?, readCompact?, readBetween?, readStartAndAmount?]

def read? (cs : List Char) : Option Shape := readers.findSome? (· cs)

end Shape

end Shorthand
