import Shorthand.Number.Binary
import Shorthand.Number.Numeral

/-!
The shortest decimal that reads back as a given binary number. Grids of one, two, three and more
digits are tried until one has a point in the interval of the reals that round to the number; of two
points on that grid the nearer one is taken, and the even one of two equally near.
-/

namespace Shorthand

open Text

/-- A positive decimal: digits as a natural number, times a power of ten. -/
structure Decimal where
  coefficient : Nat
  exponent : Int
deriving DecidableEq, Repr

def Decimal.trimmed (fuel : Nat) (d : Decimal) : Decimal :=
  match fuel with
  | 0 => d
  | fuel + 1 =>
    if d.coefficient ≠ 0 ∧ d.coefficient % 10 = 0 then
      Decimal.trimmed fuel ⟨d.coefficient / 10, d.exponent + 1⟩
    else d

namespace Binary

/-- Quarters of units from zero to the two ends of the interval of the reals that round to a
positive number. Below a power of two the neighbour is half as far away. -/
def interval (f : BinaryFormat) (units : Nat) : Nat × Nat :=
  let gap := Nat.pow 2 (gapLog f units)
  let below :=
    if 0 < gapLog f units ∧ units = gap * Nat.pow 2 (f.precision - 1) then gap else 2 * gap
  (4 * units - below, 4 * units + 2 * gap)

/-- The reals at the ends of the interval round to the number when its last bit is even. -/
def endsInclusive (f : BinaryFormat) (units : Nat) : Bool :=
  units / Nat.pow 2 (gapLog f units) % 2 == 0

def quarters (f : BinaryFormat) (d : Decimal) : Nat × Nat :=
  (d.coefficient * Nat.pow 10 d.exponent.toNat * 4 * Nat.pow 2 f.scale,
    Nat.pow 10 (-d.exponent).toNat)

def readsBack (f : BinaryFormat) (units : Nat) (d : Decimal) : Bool :=
  let (low, high) := interval f units
  let (num, den) := quarters f d
  if endsInclusive f units then low * den ≤ num && num ≤ high * den
  else low * den < num && num < high * den

def decimalExponent (f : BinaryFormat) (units : Nat) : Int :=
  let one := Nat.pow 2 f.scale
  if one ≤ units then ((digits (units / one)).length : Int) - 1
  else
    let n := (digits (one / units)).length
    if one ≤ units * Nat.pow 10 (n - 1) then 1 - (n : Int) else -n

/-- The two decimals of `n` digits next to the number, the lower one first, and twice the number in
steps of that grid, as a quotient. -/
def neighbours (f : BinaryFormat) (units n : Nat) : Decimal × Decimal × Nat × Nat :=
  let exponent := decimalExponent f units + 1 - n
  let num := units * Nat.pow 10 (-exponent).toNat
  let den := Nat.pow 2 f.scale * Nat.pow 10 exponent.toNat
  (⟨num / den, exponent⟩, ⟨num / den + 1, exponent⟩, 2 * num, den)

def onGrid? (f : BinaryFormat) (units n : Nat) : Option Decimal :=
  let (low, high, num, den) := neighbours f units n
  match readsBack f units low, readsBack f units high with
  -- Twice the number lies below, on or above the middle of the two, in steps of the grid.
  | true, true =>
    let middle := (2 * low.coefficient + 1) * den
    if num < middle ∨ num = middle ∧ low.coefficient % 2 = 0 then some low else some high
  | true, false => some low
  | false, true => some high
  | false, false => none

/-- The shortest decimal that reads back as a positive number; seventeen digits are enough for every
format of up to 53 bits. -/
def shortest (f : BinaryFormat) (units : Nat) : Decimal :=
  ((List.range' 1 17).findSome? (onGrid? f units)).getD (neighbours f units 17).1 |>.trimmed 17

end Binary

/-- Which exponents of the first digit are written in positional notation, with a point and at least
one digit on either side of it. -/
structure RealLayout where
  positionalFrom : Int
  positionalTo : Int
deriving DecidableEq, Repr

namespace Numeral

def ofDecimal (layout : RealLayout) (negative : Bool) (d : Decimal) : Numeral :=
  let ds := digits d.coefficient
  let first := d.exponent + ds.length - 1
  if layout.positionalFrom ≤ first ∧ first ≤ layout.positionalTo then
    if 0 ≤ d.exponent then
      { negative, whole := ds ++ List.replicate d.exponent.toNat '0', fraction := ['0'] }
    else if 0 ≤ first then
      { negative, whole := ds.take (first.toNat + 1), fraction := ds.drop (first.toNat + 1) }
    else { negative, whole := ['0'], fraction := List.replicate (-first - 1).toNat '0' ++ ds }
  else { negative, whole := ds.take 1, fraction := ds.drop 1, exponent := some first }

/-- The shortest numeral of a finite number; zero keeps its sign. -/
def ofBinary? (layout : RealLayout) {f : BinaryFormat} : Binary f → Option Numeral
  | .finite negative 0 => some { negative, whole := ['0'], fraction := ['0'] }
  | .finite negative units => some (ofDecimal layout negative (Binary.shortest f units))
  | .infinite _ => none

def toBinary (f : BinaryFormat) (n : Numeral) : Binary f :=
  Binary.ofRatio f n.negative n.ratio.1 n.ratio.2

end Numeral

end Shorthand
