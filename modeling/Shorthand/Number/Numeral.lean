import Shorthand.Text.Digit

/-!
Decimal numerals as they are written: a sign, whole digits, a fraction and an exponent of ten.
-/

namespace Shorthand

open Text

structure Numeral where
  negative : Bool
  whole : List Char
  /-- The digits after the point, which is not written when there are none. -/
  fraction : List Char := []
  exponent : Option Int := none
deriving DecidableEq, Repr

namespace Numeral

def ofInt : Int → Numeral
  | .ofNat n => { negative := false, whole := digits n }
  | .negSucc n => { negative := true, whole := digits (n + 1) }

def ratio (n : Numeral) : Nat × Nat :=
  let mantissa := Nat.ofDigitChars 10 (n.whole ++ n.fraction) 0
  let exponent := n.exponent.getD 0 - n.fraction.length
  (mantissa * Nat.pow 10 exponent.toNat, Nat.pow 10 (-exponent).toNat)

def toInt? (n : Numeral) : Option Int :=
  if n.fraction = [] ∧ n.exponent = none then
    (readNat? n.whole).map fun k => if n.negative then -(k : Int) else k
  else none

def exponentChars (e : Int) : List Char :=
  'e' :: (if e < 0 then '-' else '+') :: digits e.natAbs

def toChars (n : Numeral) : List Char :=
  (if n.negative then ['-'] else []) ++ n.whole ++
    (if n.fraction = [] then [] else '.' :: n.fraction) ++
    match n.exponent with
    | none => []
    | some e => exponentChars e

theorem toInt?_ofInt (i : Int) : (ofInt i).toInt? = some i := by
  cases i with
  | ofNat n => simp [ofInt, toInt?, readNat?_digits]
  | negSucc n =>
    simp only [ofInt, toInt?, readNat?_digits]
    simp [Int.negSucc_eq]

end Numeral

end Shorthand
