/-!
Lower case, as far as keywords can tell: `lower_append` says that each character is lowered by
itself.
-/

namespace Shorthand.Text

/-- The lower case of a character where it holds an ASCII letter; every other character stands for
itself. Beside `A` to `Z` these are the Kelvin sign and the dotted capital I, whose lower case is an
`i` under a combining dot. -/
def lowerChar (c : Char) : List Char :=
  if c.isUpper then [c.toLower]
  else if c = '\u212A' then ['k']
  else if c = '\u0130' then ['i', '\u0307']
  else [c]

def lower (cs : List Char) : List Char := cs.flatMap lowerChar

theorem lower_append (a b : List Char) : lower (a ++ b) = lower a ++ lower b := by
  simp [lower]

/-- Nothing but the capital letters of ASCII, the Kelvin sign and the dotted capital I is lowered. -/
theorem lowerChar_of_not_upper {c : Char} (hu : c.isUpper = false) (hk : c ≠ '\u212A')
    (hi : c ≠ '\u0130') : lowerChar c = [c] := by
  simp [lowerChar, hu, hk, hi]

end Shorthand.Text
