import Shorthand.Proofs.Chain
import Shorthand.Proofs.Slot.Group
import Shorthand.Proofs.Text.Words

/-!
Which texts are times of day. `ClockTime.read_eq_ok_iff` gives their grammar, and
`ClockTime.read_blanks_toText` says that a written time is read back with any blanks around it.
-/

namespace Shorthand

open Text

/-- One or two digits for `n`. -/
structure IsClockNumber (cs : List Char) (n : Nat) : Prop where
  numeral : IsNumeral cs n
  length_le : cs.length ≤ 2

/-- An hour and a minute with a colon directly behind the hour, and blanks wherever else. -/
def IsClockText (text : List Char) (t : ClockTime) : Prop :=
  ∃ front hour gap minute back, text = front ++ (hour ++ ':' :: (gap ++ minute) ++ back) ∧
    (∀ c ∈ front, isBlank c = true) ∧ (∀ c ∈ gap, isBlank c = true) ∧
    (∀ c ∈ back, isBlank c = true) ∧ IsClockNumber hour t.hour ∧ IsClockNumber minute t.minute

namespace IsClockNumber

variable {cs : List Char} {n : Nat}

theorem isBlank (h : IsClockNumber cs n) {c : Char} (hc : c ∈ cs) : Text.isBlank c = false :=
  isBlank_of_isDecimal (h.numeral.isDecimal c hc)

theorem twoDigits {n : Nat} (hn : n < 100) : IsClockNumber (ClockTime.twoDigits n) n :=
  ⟨ClockTime.isNumeral_twoDigits hn, Nat.le_refl 2⟩

/-- There are one or two digits. -/
theorem cases_digits (h : IsClockNumber cs n) :
    (∃ c, cs = [c] ∧ c.isDigit = true) ∨
      ∃ c d, cs = [c, d] ∧ c.isDigit = true ∧ d.isDigit = true := by
  have hdigit := h.numeral.isDigit
  have hlen := h.length_le
  cases cs with
  | nil => exact absurd rfl h.numeral.ne_nil
  | cons c cs =>
    have hc : c.isDigit = true := hdigit c List.mem_cons_self
    cases cs with
    | nil => exact Or.inl ⟨c, rfl, hc⟩
    | cons d cs =>
      obtain rfl : cs = [] := List.eq_nil_of_length_eq_zero (by
        rw [List.length_cons, List.length_cons] at hlen
        omega)
      exact Or.inr ⟨c, d, rfl, hc, hdigit d (List.mem_cons_of_mem c List.mem_cons_self)⟩

/-- Digits in front of a text: both of the first two characters, or the first one alone. -/
theorem exists_append {c : Char} (hc : c.isDigit = true) (after : List Char) :
    ∃ run rest n, c :: after = run ++ rest ∧ IsClockNumber run n ∧
      (run.length = 1 → ∀ d ∈ rest.head?, d.isDigit = false) := by
  -- The second character counts only if it is a digit too.
  by_cases hd : ∃ d rest, after = d :: rest ∧ d.isDigit = true
  · obtain ⟨d, rest, rfl, hd⟩ := hd
    have hdigit : ∀ x ∈ [c, d], x.isDigit = true := by simp [hc, hd]
    exact ⟨[c, d], rest, _, rfl, ⟨⟨List.cons_ne_nil c [d], hdigit, rfl⟩, Nat.le_refl 2⟩, by simp⟩
  · have hdigit : ∀ x ∈ [c], x.isDigit = true := by simp [hc]
    refine ⟨[c], after, _, rfl, ⟨⟨List.cons_ne_nil c [], hdigit, rfl⟩, by simp⟩, fun _ d hmem => ?_⟩
    obtain ⟨rest, rfl⟩ := List.head?_eq_some_iff.1 hmem
    exact Bool.eq_false_iff.2 fun hdigit => hd ⟨d, rest, rfl, hdigit⟩

end IsClockNumber

namespace ClockTime

/-! ## Reading -/

section Number

variable {bound n : Nat} {cs gap run rest : List Char}

/-- A number of one or two digits is read behind blanks, if no digit follows a single one. -/
theorem readNumber_append (hgap : ∀ c ∈ gap, isBlank c = true) (hrun : IsClockNumber run n)
    (hstop : run.length = 1 → ∀ c ∈ rest.head?, c.isDigit = false) :
    readNumber bound (gap ++ (run ++ rest)) =
      if n < bound then .ok (n, rest) else .error .outOfRange := by
  have hhead : ∀ c ∈ (run ++ rest).head?, isBlank c = false := by
    intro c hc
    rw [List.head?_append_of_ne_nil _ hrun.numeral.ne_nil] at hc
    exact hrun.isBlank (List.mem_of_mem_head? hc)
  rw [readNumber, trimStart_blanks hgap hhead]
  have hvalue := hrun.numeral.value
  obtain ⟨c, rfl, hc⟩ | ⟨c, d, rfl, hc, hd⟩ := hrun.cases_digits
  · cases rest with
    | nil => simp [hc, hvalue]
    | cons d rest => simp [hc, hstop rfl d rfl, hvalue]
  · simp [hc, hd, hvalue]

/-- What is read as a number is one or two digits behind blanks. -/
theorem exists_append_of_readNumber (h : readNumber bound cs = .ok (n, rest)) :
    ∃ gap run, cs = gap ++ (run ++ rest) ∧ (∀ c ∈ gap, isBlank c = true) ∧
      IsClockNumber run n := by
  obtain ⟨gap, hgap, hcs⟩ := exists_blanks_append_trimStart cs
  cases htext : trimStart cs with
  | nil =>
    rw [readNumber, htext] at h
    cases h
  | cons c after =>
    by_cases hc : c.isDigit = true
    · obtain ⟨run, rest', m, hafter, hrun, hstop⟩ := IsClockNumber.exists_append hc after
      rw [htext, hafter] at hcs
      rw [hcs, readNumber_append hgap hrun hstop] at h
      split at h
      · cases h
        exact ⟨gap, run, hcs, hgap, hrun⟩
      · cases h
    · rw [readNumber, htext] at h
      simp only [hc] at h
      cases h

end Number

/-- An hour and a minute with a colon between them are read as the time. -/
theorem readTrimmed_append {t : ClockTime} {hour gap minute : List Char}
    (hgap : ∀ c ∈ gap, isBlank c = true) (hhour : IsClockNumber hour t.hour)
    (hminute : IsClockNumber minute t.minute) :
    readTrimmed (hour ++ ':' :: (gap ++ minute)) = .ok t := by
  have hfirst : readNumber 24 (hour ++ ':' :: (gap ++ minute)) =
      .ok (t.hour.val, ':' :: (gap ++ minute)) := by
    have h : readNumber 24 ([] ++ (hour ++ ':' :: (gap ++ minute))) = _ :=
      readNumber_append (by simp) hhour (by simp)
    rwa [if_pos t.hour.isLt] at h
  have hsecond : readNumber 60 (gap ++ minute) = .ok (t.minute.val, []) := by
    have h : readNumber 60 (gap ++ (minute ++ [])) = _ :=
      readNumber_append hgap hminute (by simp)
    rwa [if_pos t.minute.isLt, List.append_nil] at h
  have hat : at? t.hour t.minute = some t := at?_eq_some_iff.2 ⟨rfl, rfl⟩
  simp [readTrimmed, hfirst, hsecond, hat, bind, Except.bind]

/-- What is read as a time is an hour and a minute with a colon between them. -/
theorem exists_of_readTrimmed {t : ClockTime} {cs : List Char} (h : readTrimmed cs = .ok t) :
    ∃ front hour gap minute, cs = front ++ (hour ++ ':' :: (gap ++ minute)) ∧
      (∀ c ∈ front, isBlank c = true) ∧ (∀ c ∈ gap, isBlank c = true) ∧
      IsClockNumber hour t.hour ∧ IsClockNumber minute t.minute := by
  unfold readTrimmed at h
  obtain ⟨⟨n, rest⟩, hfirst, hafter⟩ := bind_eq_ok_iff.1 h
  obtain ⟨front, hour, hcs, hfront, hhour⟩ := exists_append_of_readNumber hfirst
  dsimp only at hafter
  split at hafter
  · cases hafter
  · obtain ⟨⟨m, last⟩, hsecond, htime⟩ := bind_eq_ok_iff.1 hafter
    obtain ⟨gap, minute, hrest, hgap, hminute⟩ := exists_append_of_readNumber hsecond
    dsimp only at htime
    split at htime
    · cases htime
    · rename_i hlast
      split at htime
      · rename_i u hat
        cases htime
        obtain ⟨rfl, rfl⟩ := at?_eq_some_iff.1 hat
        refine ⟨front, hour, gap, minute, ?_, hfront, hgap, hhour, hminute⟩
        rw [hcs, hrest, not_not.1 hlast, List.append_nil]
      · cases htime
  · cases hafter

/-- A text is read as a time exactly if it is a spelling of it. -/
theorem read_eq_ok_iff {text : String} {t : ClockTime} :
    read text = .ok t ↔ IsClockText text.toList t := by
  unfold read
  constructor
  · intro h
    obtain ⟨front, back, hfront, hback, htext⟩ := exists_blanks_trim text.toList
    obtain ⟨inner, hour, gap, minute, hcs, hinner, hgap, hhour, hminute⟩ := exists_of_readTrimmed h
    -- Blanks that the reader of the hour skips belong to those in front.
    refine ⟨front ++ inner, hour, gap, minute, back, ?_, ?_, hgap, hback, hhour, hminute⟩
    · rw [htext, hcs]
      simp only [List.append_assoc]
    · intro c hc
      exact (List.mem_append.1 hc).elim (hfront c) (hinner c)
  · rintro ⟨front, hour, gap, minute, back, htext, hfront, hgap, hback, hhour, hminute⟩
    have hhead : ∀ c ∈ (hour ++ ':' :: (gap ++ minute)).head?, isBlank c = false := by
      intro c hc
      rw [List.head?_append_of_ne_nil _ hhour.numeral.ne_nil] at hc
      exact hhour.isBlank (List.mem_of_mem_head? hc)
    have hlast : ∀ c ∈ (hour ++ ':' :: (gap ++ minute)).getLast?, isBlank c = false := by
      intro c hc
      rw [← List.cons_append, ← List.append_assoc,
        List.getLast?_append_of_ne_nil _ hminute.numeral.ne_nil] at hc
      exact hminute.isBlank (List.mem_of_getLast? hc)
    rw [htext, trim_blanks_append hfront, trim_append_blanks hback, trim_eq_self hhead hlast]
    exact readTrimmed_append hgap hhour hminute

/-! ## Written times -/

/-- A written time is read back, whatever blanks stand around it. -/
theorem read_blanks_toText {front back : String} (t : ClockTime)
    (hfront : ∀ c ∈ front.toList, isBlank c = true)
    (hback : ∀ c ∈ back.toList, isBlank c = true) : read (front ++ t.toText ++ back) = .ok t := by
  rw [read_eq_ok_iff]
  refine ⟨front.toList, twoDigits t.hour, [], twoDigits t.minute, back.toList, ?_, hfront, by simp,
    hback, .twoDigits (by omega), .twoDigits (by omega)⟩
  rw [String.toList_append, String.toList_append, toText, String.toList_ofList, List.append_assoc]
  rfl

/-- A time is read back from its text. -/
theorem read_toText (t : ClockTime) : read t.toText = .ok t := by
  have h : read ("" ++ t.toText ++ "") = .ok t := read_blanks_toText t (by simp) (by simp)
  rwa [String.empty_append, String.append_empty] at h

end ClockTime

end Shorthand
