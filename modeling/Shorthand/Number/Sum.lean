import Shorthand.Text.Digit

/-!
Sums that are kept in a word of 32 bits: what fits is exact, and there is nothing in place of what
does not.
-/

namespace Shorthand

open Text

inductive SumFault where
  /-- The word has no place for the sum. -/
  | pastWord
deriving DecidableEq, Repr

def inInt32 (sum : Int) : Except SumFault Int :=
  if -(maxInt32 : Int) - 1 ≤ sum ∧ sum ≤ maxInt32 then .ok sum else .error .pastWord

def inNat32 (sum : Nat) : Except SumFault Nat :=
  if sum ≤ maxNat32 then .ok sum else .error .pastWord

variable {e : SumFault}

/-- A sum is exact if it is in the range of a signed word. -/
theorem inInt32_eq_ok_iff {sum i : Int} :
    inInt32 sum = .ok i ↔ (-2147483648 ≤ sum ∧ sum ≤ 2147483647) ∧ sum = i := by
  rw [inInt32]
  split
  · rename_i h
    rw [Except.ok.injEq, and_iff_right (show -2147483648 ≤ sum ∧ sum ≤ 2147483647 from h)]
  · rename_i h
    exact iff_of_false nofun fun hsum => h hsum.1

/-- A sum is exact if it is at most the largest unsigned word. -/
theorem inNat32_eq_ok_iff {sum n : Nat} : inNat32 sum = .ok n ↔ sum ≤ 4294967295 ∧ sum = n := by
  rw [inNat32]
  split
  · rename_i h
    rw [Except.ok.injEq, and_iff_right (show sum ≤ 4294967295 from h)]
  · rename_i h
    exact iff_of_false nofun fun hsum => h hsum.1

theorem inInt32_eq_error_iff {sum : Int} :
    inInt32 sum = .error e ↔ ¬ (-2147483648 ≤ sum ∧ sum ≤ 2147483647) := by
  cases e
  rw [inInt32]
  split
  · rename_i h
    exact iff_of_false nofun fun hsum => hsum h
  · rename_i h
    exact iff_of_true rfl h

end Shorthand
