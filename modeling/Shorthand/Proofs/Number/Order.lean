import Mathlib.Data.Nat.Init
import Mathlib.Order.Basic
import Shorthand.Completion.Basic

/-!
Binary floating-point numbers in the order of what they stand for. `Confidence.ofPercent_le_iff`
says that percentages keep their order as confidences, although each of them is rounded.
-/

namespace Shorthand

namespace Binary

variable {f : BinaryFormat}

/-- Where a number stands: whether it is one of the two infinities, and what it counts if it is
not. Both zeros count nothing. -/
def place : Binary f → Int × Int
  | .infinite true => (-1, 0)
  | .finite negative units => (0, if negative then -units else units)
  | .infinite false => (1, 0)

/-- Numbers are compared by where they stand, so neither zero is below the other. -/
instance : Preorder (Binary f) where
  le x y := x.place.1 < y.place.1 ∨ x.place.1 = y.place.1 ∧ x.place.2 ≤ y.place.2
  le_refl x := Or.inr ⟨rfl, Int.le_refl _⟩
  le_trans _ _ _ hxy hyz := by omega

instance : DecidableLE (Binary f) := fun x y => inferInstanceAs (Decidable
  (x.place.1 < y.place.1 ∨ x.place.1 = y.place.1 ∧ x.place.2 ≤ y.place.2))

end Binary

namespace Confidence

theorem ofPercent_lt_succ {n : Nat} (hn : n < 100) : ofPercent n < ofPercent (n + 1) := by
  have hall : ∀ k < 100, ofPercent k ≤ ofPercent (k + 1) ∧ ¬ ofPercent (k + 1) ≤ ofPercent k := by
    decide +kernel
  exact lt_iff_le_not_ge.2 (hall n hn)

/-- Percentages up to a hundred keep their order when they are rounded. -/
theorem ofPercent_lt {m n : Nat} (h : m < n) (hn : n ≤ 100) : ofPercent m < ofPercent n := by
  induction n, h using Nat.le_induction with
  | base => exact ofPercent_lt_succ hn
  | succ n _ ih => exact (ih (Nat.le_of_succ_le hn)).trans (ofPercent_lt_succ hn)

/-- No two percentages are rounded to the same confidence, or to two in the other order. -/
theorem ofPercent_le_iff {m n : Nat} (hm : m ≤ 100) (hn : n ≤ 100) :
    ofPercent m ≤ ofPercent n ↔ m ≤ n := by
  constructor
  · intro h
    by_contra hlt
    exact (ofPercent_lt (Nat.lt_of_not_le hlt) hm).not_ge h
  · intro h
    rcases Nat.eq_or_lt_of_le h with rfl | hlt
    · exact le_rfl
    · exact (ofPercent_lt hlt hn).le

end Confidence

end Shorthand
