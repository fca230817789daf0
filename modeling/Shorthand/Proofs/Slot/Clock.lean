import Shorthand.Proofs.Slot.Grammar

/-!
What a time expression takes from the clock. `Slot.alike_read` compares the slots that two clocks
give it: nothing but the start can differ, and that only where the expression counts from the clock.
-/

namespace Shorthand

open Text

inductive IsRelative : List Char → Prop
  | now : IsRelative ['n', 'o', 'w']
  | fromNow {cs : List Char} {n : Nat} {u : TimeUnit} (hcs : IsNumeral cs n) :
      IsRelative ('n' :: 'o' :: 'w' :: '+' :: (cs ++ [u.letter]))
  | amount {cs : List Char} {n : Nat} {u : TimeUnit} (hcs : IsNumeral cs n) :
      IsRelative (cs ++ [u.letter])

variable {same : Prop}

namespace Slot

/-- Two slots that differ in their start at most, and not at all if `same`. -/
structure Alike (same : Prop) (s t : Slot) : Prop where
  isSome_start : s.start.isSome = t.start.isSome
  finish : s.finish = t.finish
  length : s.length = t.length
  eq : same → s = t

namespace Alike

variable {s t : Slot}

theorem refl (s : Slot) : Alike same s s := ⟨rfl, rfl, rfl, fun _ => rfl⟩

theorem of_start {t u : ClockTime} (finish : Option ClockTime) (length : Option Int)
    (h : same → t = u) : Alike same ⟨some t, finish, length⟩ ⟨some u, finish, length⟩ :=
  ⟨rfl, rfl, rfl, fun hsame => by rw [h hsame]⟩

theorem lasting {t u : ClockTime} {n? : Option Nat} (h : ∀ n, n? = some n → same → t = u) :
    Alike same ((n?.map (Slot.lasting t)).getD {}) ((n?.map (Slot.lasting u)).getD {}) := by
  cases n? with
  | none => exact .refl _
  | some n => exact .of_start _ _ (h n rfl)

theorem start_eq_none_iff (h : Alike same s t) : s.start = none ↔ t.start = none := by
  rw [← Option.not_isSome_iff_eq_none, h.isSome_start, Option.not_isSome_iff_eq_none]

theorem isEmpty (h : Alike same s t) : s.isEmpty = t.isEmpty := by
  simp only [Slot.isEmpty, ← Option.not_isSome, h.isSome_start, h.finish, h.length]

theorem isComplete (h : Alike same s t) : s.isComplete = t.isComplete := by
  simp only [Slot.isComplete, h.isSome_start, h.finish, h.length]

end Alike

/-- The same slot comes out if the two clocks show the same minute or the word does not count from
the clock. -/
theorem alike_read (same : Prop) (now now' : ClockReading) (word : List Char)
    (hsame : same → ClockTime.ofReading now = ClockTime.ofReading now' ∨
      ¬ IsRelative (lower (trim word))) :
    Agree (Alike same) (Slot.read now word) (Slot.read now' word) := by
  have hclock : same → IsRelative (lower (trim word)) →
      ClockTime.ofReading now = ClockTime.ofReading now' :=
    fun h hrelative => (hsame h).resolve_right (not_not_intro hrelative)
  unfold Slot.read readChars
  cases hshape : Shape.read? (lower (trim word)) with
  | none => exact .ok (.refl _)
  | some shape =>
    have hspells := Shape.read?_eq_some_iff.1 hshape
    generalize lower (trim word) = cs at hclock hspells
    -- Only three shapes look at the clock, and two of them only if their amount is a number.
    cases hspells with
    | now => exact .ok (.of_start _ _ fun h => hclock h .now)
    | fromNow ha =>
      refine .ok (.lasting fun n hn hs => hclock hs ?_)
      obtain ⟨k, hk, -⟩ := Amount.minutes?_eq_some_iff.1 hn
      exact ha.eq ▸ .fromNow hk
    | amount ha =>
      refine .ok (.lasting fun n hn hs => hclock hs ?_)
      obtain ⟨k, hk, -⟩ := Amount.minutes?_eq_some_iff.1 hn
      exact ha.eq ▸ .amount hk
    | _ => exact .refl .refl _

end Slot

end Shorthand
