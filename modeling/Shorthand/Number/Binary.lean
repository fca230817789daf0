/-!
Binary floating-point numbers as exact values. A finite number counts the smallest positive number
of its format, so a conversion is one rounding of a quotient.
-/

namespace Shorthand

/-- The quotient rounded to a whole number; a half goes to the even neighbour. -/
def divRound (num den : Nat) : Nat :=
  let q := num / den
  let r := num % den
  if 2 * r < den then q
  else if den < 2 * r then q + 1
  else q + q % 2

/-- A format: how many bits a number has, the power of one half that is its smallest positive
number, and the power of two that its numbers stay below. -/
structure BinaryFormat where
  precision : Nat
  scale : Nat
  limit : Nat
deriving DecidableEq, Repr

def BinaryFormat.single : BinaryFormat := ⟨24, 149, 128⟩

def BinaryFormat.double : BinaryFormat := ⟨53, 1074, 1024⟩

/-- A number of a format, zero with a sign like every other. -/
inductive Binary (f : BinaryFormat) where
  | finite (negative : Bool) (units : Nat)
  | infinite (negative : Bool)
deriving DecidableEq, Repr

namespace Binary

variable {f : BinaryFormat}

/-- The logarithm of the distance between neighbours around so many units. -/
def gapLog (f : BinaryFormat) (units : Nat) : Nat := units.log2 - (f.precision - 1)

/-- The nearest number to `num / den` units; a tie goes to the neighbour with an even last bit, and
what is too large is infinite. -/
def round (f : BinaryFormat) (negative : Bool) (num den : Nat) : Binary f :=
  let gap := Nat.pow 2 (gapLog f (num / den))
  let units := divRound num (den * gap) * gap
  if units < Nat.pow 2 (f.limit + f.scale) then .finite negative units else .infinite negative

def ofRatio (f : BinaryFormat) (negative : Bool) (num den : Nat) : Binary f :=
  round f negative (num * Nat.pow 2 f.scale) den

def convert (g : BinaryFormat) : Binary f → Binary g
  | .finite negative units => ofRatio g negative units (Nat.pow 2 f.scale)
  | .infinite negative => .infinite negative

def times (n : Nat) : Binary f → Binary f
  | .finite negative units => round f negative (n * units) 1
  | .infinite negative => .infinite negative

end Binary

end Shorthand
