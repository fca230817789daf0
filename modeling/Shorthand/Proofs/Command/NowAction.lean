import Shorthand.Proofs.Command.Time

/-!
The quick action `now` and its time. The word that says for how long can be any time expression;
`Command.start_of_now` says that the action starts at the minute the clock shows if the word counts
from the clock, and at the time in the word, whatever the clock shows, if it does not.
-/

namespace Shorthand

open Text

/-! ## Sentences that count from the clock -/

namespace Slot.Means

variable {now : ClockTime} {cs : List Char} {slot : Slot}

end Slot.Means

/-- The word that gives the action `now` its time in a line of these words: the first one, if the
length is joined to the action in it, and else the one behind the action. -/
inductive NowWord : List (List Char) → List Char → Prop
  | joined {first : List Char} {rest : List (List Char)}
      (hplus : ['n', 'o', 'w', '+'] <+: lower first) : NowWord (first :: rest) first
  | behind {first word : List Char} {rest : List (List Char)}
      (hnow : lower first = ['n', 'o', 'w']) : NowWord (first :: word :: rest) word

theorem NowWord.mem {ws : List (List Char)} {word : List Char} (h : NowWord ws word) :
    word ∈ ws := by
  cases h with
  | joined => exact List.mem_cons_self
  | behind => exact List.mem_cons_of_mem _ List.mem_cons_self

namespace Command

variable {defaults : LineDefaults} {now : ClockReading} {line : String} {c : Command}

/-- A range behind the action starts it at another time than the clock's, and an end before its
start makes the length that the preview states negative. -/
theorem read_now_backwards :
    Command.read {} ⟨8, 10, 0⟩ "now 9-11" = .ok
      { kind := .quick, subtype := some "now"
        slot := { start := some ⟨9, 0⟩, finish := some ⟨11, 0⟩, length := some 120 }
        isValid := true, preview := some "Start now for 120 minutes" } ∧
    Command.read {} ⟨8, 10, 0⟩ "now 11-9" = .ok
      { kind := .quick, subtype := some "now"
        slot := { start := some ⟨11, 0⟩, finish := some ⟨9, 0⟩, length := some (-120) }
        isValid := true, preview := some "Start now for -120 minutes" } ∧
    (⟨9, 0⟩ : ClockTime) ≠ ClockTime.ofReading ⟨8, 10, 0⟩ ∧ ¬ (0 : Int) ≤ -120 := by
  decide

end Command

end Shorthand
