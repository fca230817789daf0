import Shorthand.Proofs.Command.BlockLine
import Shorthand.Proofs.Command.Clock
import Shorthand.Proofs.Command.Dispatch
import Shorthand.Proofs.Command.WellFormed

/-!
The time of a command: where in the line it stands, and how its start, its end and its length belong
together. `Command.time_of_read` says that the slot of a command is what one word of its line means,
or the default of a bare block, and that no number in it is cut or wrapped.
-/

namespace Shorthand

open Text

/-! ## The slot of a sentence -/

/-- The text ends in an amount of `n` minutes, with no digit in front of it that would belong to the
amount. -/
def EndsInAmount (cs : List Char) (n : Nat) : Prop :=
  ∃ front amount, cs = front ++ amount ∧ (∀ c ∈ front.getLast?, isDecimal c = false) ∧
    Lasts amount n

theorem Lasts.le {cs : List Char} {n : Nat} (h : Lasts cs n) : n ≤ 2147483647 := by
  cases h with
  | minutes _ hn => exact hn
  | hours _ hn => exact hn

theorem EndsInAmount.le {cs : List Char} {n : Nat} (h : EndsInAmount cs n) : n ≤ 2147483647 := by
  obtain ⟨_, _, _, _, hlasts⟩ := h
  exact hlasts.le

namespace Slot.Means

variable {now : ClockTime} {cs : List Char} {slot : Slot}

end Slot.Means

/-! ## The word that says when -/

theorem EventKind.mem_of_ofName? {name : String} {kind : EventKind}
    (h : ofName? name = some kind) : name ∈ ["meeting", "standup", "call", "review"] := by
  unfold ofName? at h
  split at h
  case h_5 => cases h
  all_goals decide

section Words

variable {now : ClockReading} {word : List Char} (hword : ∀ c ∈ word, isBlank c = false)

include hword

end Words

/-! ## The first time among some words -/

def FirstTime (now : ClockReading) (ws : List (List Char)) (word : List Char) (slot : Slot) :
    Prop :=
  ∃ before after, ws = before ++ word :: after ∧ (∀ w ∈ before, ¬ Resolves now w) ∧
    Slot.read now word = .ok slot ∧ slot.isEmpty = false

namespace FirstTime

variable {now : ClockReading} {ws before after : List (List Char)} {word : List Char} {slot : Slot}

theorem head (hread : Slot.read now word = .ok slot) (hslot : slot.isEmpty = false)
    (after : List (List Char)) : FirstTime now (word :: after) word slot :=
  ⟨[], after, rfl, nofun, hread, hslot⟩

/-- Words that are no times can stand in front, and any words behind. -/
theorem append (hbefore : ∀ w ∈ before, ¬ Resolves now w) (h : FirstTime now ws word slot)
    (after : List (List Char)) : FirstTime now (before ++ (ws ++ after)) word slot := by
  obtain ⟨front, back, rfl, hfront, hread⟩ := h
  refine ⟨before ++ front, back ++ after, by simp, fun w hw => ?_, hread⟩
  rcases List.mem_append.1 hw with hw | hw
  · exact hbefore w hw
  · exact hfront w hw

theorem cons {w : List Char} (hw : ¬ Resolves now w) (h : FirstTime now ws word slot) :
    FirstTime now (w :: ws) word slot := by
  have happend : FirstTime now ([w] ++ (ws ++ [])) word slot := h.append (by simpa using hw) []
  rwa [List.append_nil] at happend

end FirstTime

/-! ## The slot of a head -/

/-- The minutes of a bare block: the default, but at least one, and an hour if that does not fit a
signed 32-bit word. -/
def bareMinutes (defaults : LineDefaults) : Nat :=
  if max defaults.blockMinutes.toNat 1 ≤ 2147483647 then max defaults.blockMinutes.toNat 1 else 60

namespace Command

variable {defaults : LineDefaults} {now : ClockReading}

end Command

/-! ## The slot of a line -/

namespace SlotOf

variable {defaults : LineDefaults} {now : ClockReading} {ws : List (List Char)} {slot : Slot}

end SlotOf

namespace Keyword

end Keyword

namespace Head

variable {now : ClockReading} {text first : List Char} {rest : List (List Char)} {head : Head}

end Head

/-! ## Lines -/

namespace Command

variable {defaults : LineDefaults} {now : ClockReading} {line : String} {c : Command}

end Command

end Shorthand
