import Shorthand.Proofs.Clock.Shift
import Shorthand.Proofs.Clock.Text
import Shorthand.Slot.Basic

/-!
Clock times under any run of settings, readings, shifts and roundings. What one step does is
`ClockTime.after_eq_ok_iff`; a run only ever reaches times that are written in five characters and
read back, and that come in the order of their minutes.
-/

namespace Shorthand

open Text

inductive ClockStep where
  /-- It is put to an hour and a minute, if there is such a time. -/
  | set (hour minute : Nat)
  /-- It is put to the minute that a clock shows. -/
  | take (r : ClockReading)
  /-- It is put to the time that a text spells, if it spells one. -/
  | enter (text : String)
  | shift (m : Int32)
  | round
deriving DecidableEq, Repr

namespace ClockTime

variable {t u v : ClockTime}

/-- The time after a step; what gives no time leaves the one there was. -/
def after (t : ClockTime) : ClockStep → Except SumFault ClockTime
  | .set hour minute => .ok ((at? hour minute).getD t)
  | .take r => .ok (ofReading r)
  | .enter text => .ok ((read text).toOption.getD t)
  | .shift m => t.shift m.toInt
  | .round => .ok t.roundToHalfHour

/-- The time after some steps. A shift past its word ends them without one. -/
def run (t : ClockTime) (steps : List ClockStep) : Except SumFault ClockTime :=
  steps.foldlM after t

/-! ## Order -/

/-- Times of day come in the order of their minutes since midnight. -/
theorem compare_eq_compare_minutes (t u : ClockTime) : compare t u = compare t.minutes u.minutes := by
  have ht := t.minute.isLt
  have hu := u.minute.isLt
  show (compare t.hour.val u.hour.val).then (compare t.minute.val u.minute.val) = _
  -- A whole hour outweighs all the minutes in it.
  rcases Nat.lt_trichotomy t.hour.val u.hour.val with hlt | heq | hgt
  · have hminutes : t.minutes < u.minutes := by
      simp only [minutes]
      omega
    rw [Nat.compare_eq_lt.2 hlt, Nat.compare_eq_lt.2 hminutes]
    rfl
  · rw [Nat.compare_eq_eq.2 heq, minutes, minutes, heq, Nat.compare_eq_ite_lt,
      Nat.compare_eq_ite_lt]
    simp only [Nat.add_lt_add_iff_left, Ordering.then]
  · have hminutes : u.minutes < t.minutes := by
      simp only [minutes]
      omega
    rw [Nat.compare_eq_gt.2 hgt, Nat.compare_eq_gt.2 hminutes]
    rfl

/-- Only a time itself comes neither before nor after it. -/
theorem compare_eq_eq_iff : compare t u = .eq ↔ t = u := by
  rw [compare_eq_compare_minutes, Nat.compare_eq_eq]
  exact ⟨minutes_injective, congrArg minutes⟩

/-- The slot from one time to another has a length of the same sign as their order. -/
theorem exists_length_between (t u : ClockTime) :
    ∃ d, (Slot.between t u).length = some d ∧ compare t u = compare 0 d := by
  refine ⟨(u.minutes : Int) - t.minutes, rfl, ?_⟩
  rw [compare_eq_compare_minutes]
  rcases Nat.lt_trichotomy t.minutes u.minutes with hlt | heq | hgt
  · rw [Nat.compare_eq_lt.2 hlt, Int.compare_eq_lt.2 (by omega)]
  · rw [Nat.compare_eq_eq.2 heq, Int.compare_eq_eq.2 (by omega)]
  · rw [Nat.compare_eq_gt.2 hgt, Int.compare_eq_gt.2 (by omega)]

/-! ## Rounding -/

/-- A half hour no more than a quarter of an hour away from `t` around the circle of a day, and not
the one a full quarter before it. -/
structure IsNearestHalfHour (t u : ClockTime) : Prop where
  minute : u.minute.val = 0 ∨ u.minute.val = 30
  near : ∃ d : Int, -15 < d ∧ d ≤ 15 ∧ (u.minutes : Int) ≡ t.minutes + d [ZMOD 1440]

theorem isNearestHalfHour_roundToHalfHour (t : ClockTime) :
    IsNearestHalfHour t t.roundToHalfHour := by
  refine ⟨?_, ((t.minutes + 15) / 30 * 30 : Nat) - t.minutes, ?_, ?_, ?_⟩
  · simp only [roundToHalfHour, ofMinutes]
    omega
  · omega
  · omega
  · rw [roundToHalfHour, minutes_ofMinutes, Int.modEq_iff_dvd]
    omega

/-- No two half hours are both the nearest. -/
theorem IsNearestHalfHour.unique (hu : IsNearestHalfHour t u) (hv : IsNearestHalfHour t v) :
    u = v := by
  obtain ⟨d, hlo, hhi, hd⟩ := hu.near
  obtain ⟨e, elo, ehi, he⟩ := hv.near
  rw [Int.modEq_iff_dvd] at hd he
  have hminute := hu.minute
  have eminute := hv.minute
  -- Both are multiples of thirty less than thirty apart, and the circle is a multiple of thirty.
  apply minutes_injective
  simp only [minutes] at hd he ⊢
  omega

/-- Rounding finds the nearest half hour. -/
theorem isNearestHalfHour_iff : IsNearestHalfHour t u ↔ t.roundToHalfHour = u :=
  ⟨t.isNearestHalfHour_roundToHalfHour.unique, fun h => h ▸ t.isNearestHalfHour_roundToHalfHour⟩

/-- A half hour is its own nearest. -/
theorem roundToHalfHour_roundToHalfHour (t : ClockTime) :
    t.roundToHalfHour.roundToHalfHour = t.roundToHalfHour :=
  isNearestHalfHour_iff.1
    ⟨t.isNearestHalfHour_roundToHalfHour.minute, 0, by decide, by decide, by rw [Int.add_zero]⟩

end ClockTime

/-! ## Steps and runs -/

/-- What a step makes of the time `t`. A shift whose sum is past its word makes nothing of it. -/
inductive ClockStep.Lands (t : ClockTime) : ClockStep → ClockTime → Prop
  | set (u : ClockTime) : Lands t (.set u.hour u.minute) u
  | unset {hour minute : Nat} (h : ¬ (hour < 24 ∧ minute < 60)) : Lands t (.set hour minute) t
  | take (r : ClockReading) : Lands t (.take r) ⟨r.hour, r.minute⟩
  | enter {text : String} {u : ClockTime} (h : IsClockText text.toList u) : Lands t (.enter text) u
  | unread {text : String} (h : ∀ u, ¬ IsClockText text.toList u) : Lands t (.enter text) t
  | shift {m : Int32} {u : ClockTime} (hfits : ¬ t.Overflows m)
      (h : (u.minutes : Int) ≡ t.minutes + m.toInt [ZMOD 1440]) : Lands t (.shift m) u
  | round {u : ClockTime} (h : t.IsNearestHalfHour u) : Lands t .round u

inductive ClockStep.Reaches : ClockTime → List ClockStep → ClockTime → Prop
  | nil (t : ClockTime) : Reaches t [] t
  | step {t u v : ClockTime} {step : ClockStep} {steps : List ClockStep} (h : step.Lands t u)
      (hrest : Reaches u steps v) : Reaches t (step :: steps) v

namespace ClockTime

variable {t u : ClockTime}

theorem at?_eq_none_iff {hour minute : Nat} :
    at? hour minute = none ↔ ¬ (hour < 24 ∧ minute < 60) := by
  rw [at?]
  split
  · rename_i h
    exact iff_of_false (Option.some_ne_none _) fun hnot => hnot h
  · rename_i h
    exact iff_of_true rfl h

/-- A time is set if its parts are in range; otherwise nothing happens. -/
theorem after_set_eq_ok_iff {hour minute : Nat} :
    t.after (.set hour minute) = .ok u ↔ ClockStep.Lands t (.set hour minute) u := by
  rw [after, Except.ok.injEq]
  cases hat : at? hour minute with
  | none =>
    have hnot := at?_eq_none_iff.1 hat
    rw [Option.getD_none]
    constructor
    · rintro rfl
      exact .unset hnot
    · rintro (_ | _)
      · exact absurd ⟨u.hour.isLt, u.minute.isLt⟩ hnot
      · rfl
  | some v =>
    have hv := at?_eq_some_iff.1 hat
    rw [Option.getD_some]
    constructor
    · rintro rfl
      rw [hv.1, hv.2]
      exact .set v
    · rintro (_ | hnot)
      · exact (ClockTime.ext (Fin.ext hv.1) (Fin.ext hv.2)).symm
      · rw [at?_eq_none_iff.2 hnot] at hat
        cases hat

/-- A text is entered if it is that of a time; otherwise nothing happens. -/
theorem after_enter_eq_ok_iff {text : String} :
    t.after (.enter text) = .ok u ↔ ClockStep.Lands t (.enter text) u := by
  rw [after, Except.ok.injEq]
  cases hread : read text with
  | error fault =>
    have hnot : ∀ v, ¬ IsClockText text.toList v := by
      intro v hv
      rw [read_eq_ok_iff.2 hv] at hread
      cases hread
    constructor
    · rintro rfl
      exact .unread hnot
    · rintro (_ | _ | _ | hv | _)
      · exact absurd hv (hnot u)
      · rfl
  | ok v =>
    have hv := read_eq_ok_iff.1 hread
    constructor
    · rintro rfl
      exact .enter hv
    · rintro (_ | _ | _ | hu | hnot)
      · rw [read_eq_ok_iff.2 hu] at hread
        cases hread
        rfl
      · exact absurd hv (hnot v)

/-- What each step gives. -/
theorem after_eq_ok_iff {step : ClockStep} : t.after step = .ok u ↔ step.Lands t u := by
  cases step with
  | set hour minute => exact after_set_eq_ok_iff
  | take r =>
    constructor
    · rintro ⟨⟩
      exact .take r
    · rintro ⟨⟩
      rfl
  | enter text => exact after_enter_eq_ok_iff
  | shift m =>
    rw [after, shift_toInt_eq_ok_iff]
    constructor
    · rintro ⟨hfits, h⟩
      exact .shift hfits h
    · rintro (_ | _ | _ | _ | _ | ⟨hfits, h⟩)
      exact ⟨hfits, h⟩
  | round =>
    rw [after, Except.ok.injEq, ← isNearestHalfHour_iff]
    constructor
    · exact .round
    · rintro (_ | _ | _ | _ | _ | _ | h)
      exact h

/-- Only a shift can end in a fault. -/
theorem after_eq_error_iff {step : ClockStep} {e : SumFault} :
    t.after step = .error e ↔ ∃ m, step = .shift m ∧ t.Overflows m := by
  cases step with
  | shift m =>
    rw [after, shift_toInt_eq_error_iff]
    constructor
    · intro h
      exact ⟨m, rfl, h⟩
    · rintro ⟨_, ⟨⟩, h⟩
      exact h
  | set hour minute => exact iff_of_false nofun nofun
  | take r => exact iff_of_false nofun nofun
  | enter text => exact iff_of_false nofun nofun
  | round => exact iff_of_false nofun nofun

theorem run_cons (t : ClockTime) (step : ClockStep) (steps : List ClockStep) :
    t.run (step :: steps) = t.after step >>= (·.run steps) := List.foldlM_cons

/-- A run reaches the time its steps lead to one after the other, and no other. -/
theorem run_eq_ok_iff {steps : List ClockStep} :
    t.run steps = .ok u ↔ ClockStep.Reaches t steps u := by
  induction steps generalizing t with
  | nil =>
    constructor
    · rintro ⟨⟩
      exact .nil u
    · rintro ⟨⟩
      rfl
  | cons step steps ih =>
    rw [run_cons, bind_eq_ok_iff]
    constructor
    · rintro ⟨v, hv, hrest⟩
      exact .step (after_eq_ok_iff.1 hv) (ih.1 hrest)
    · rintro (_ | ⟨hv, hrest⟩)
      exact ⟨_, after_eq_ok_iff.2 hv, ih.2 hrest⟩

/-- A run ends in a fault exactly where it reaches a shift that is past its word. -/
theorem run_eq_error_iff {steps : List ClockStep} {e : SumFault} :
    t.run steps = .error e ↔ ∃ front m back u, steps = front ++ .shift m :: back ∧
      ClockStep.Reaches t front u ∧ u.Overflows m := by
  induction steps generalizing t with
  | nil =>
    refine iff_of_false nofun ?_
    rintro ⟨front, m, back, u, hsteps, -⟩
    exact absurd hsteps.symm (List.append_ne_nil_of_right_ne_nil front (List.cons_ne_nil _ back))
  | cons step steps ih =>
    rw [run_cons, bind_eq_error_iff, after_eq_error_iff]
    constructor
    · rintro (⟨m, rfl, hover⟩ | ⟨v, hv, hrest⟩)
      · exact ⟨[], m, steps, t, rfl, .nil t, hover⟩
      · obtain ⟨front, m, back, u, rfl, hreach, hover⟩ := ih.1 hrest
        exact ⟨step :: front, m, back, u, rfl, .step (after_eq_ok_iff.1 hv) hreach, hover⟩
    · rintro ⟨front, m, back, u, hsteps, hreach, hover⟩
      -- The fault is in the first step, or in a run from the time that this one gives.
      cases hreach with
      | nil =>
        obtain ⟨rfl, -⟩ := List.cons_eq_cons.1 hsteps
        exact Or.inl ⟨m, rfl, hover⟩
      | step hv hrest =>
        obtain ⟨rfl, hback⟩ := List.cons_eq_cons.1 hsteps
        exact Or.inr ⟨_, after_eq_ok_iff.2 hv, ih.2 ⟨_, m, back, u, hback, hrest, hover⟩⟩

/-- A time that is kept as it is written: an hour of the day and a minute of the hour, five
characters that say both and are read back with any blanks around them, and a clock reading that
leads back to it. Its nearest half hour is at most a quarter of an hour away. -/
structure Canonical (t : ClockTime) : Prop where
  hour_le : t.hour.val ≤ 23
  minute_le : t.minute.val ≤ 59
  text : ∃ hour minute, t.toText.toList = hour ++ ':' :: minute ∧ hour.length = 2 ∧
    minute.length = 2 ∧ IsNumeral hour t.hour ∧ IsNumeral minute t.minute
  read : ∀ front back : String, (∀ c ∈ front.toList, isBlank c = true) →
    (∀ c ∈ back.toList, isBlank c = true) → ClockTime.read (front ++ t.toText ++ back) = .ok t
  reading : ofReading t.toReading = t
  rounded : IsNearestHalfHour t t.roundToHalfHour
  rounded_twice : t.roundToHalfHour.roundToHalfHour = t.roundToHalfHour

/-- The order of two times is that of their minutes, and of the sign of the length from the first to
the second. -/
structure Ordered (t u : ClockTime) : Prop where
  minutes : compare t u = compare t.minutes u.minutes
  length : ∃ d, (Slot.between t u).length = some d ∧ compare t u = compare 0 d
  eq : compare t u = .eq ↔ t = u

/-- Every time of day is canonical, for it has no other way to be kept. -/
theorem canonical (t : ClockTime) : Canonical t where
  hour_le := Nat.le_of_lt_succ t.hour.isLt
  minute_le := Nat.le_of_lt_succ t.minute.isLt
  text := ⟨twoDigits t.hour, twoDigits t.minute, String.toList_ofList, rfl, rfl,
    isNumeral_twoDigits (by omega), isNumeral_twoDigits (by omega)⟩
  read _ _ := t.read_blanks_toText
  reading := ofReading_toReading t
  rounded := t.isNearestHalfHour_roundToHalfHour
  rounded_twice := t.roundToHalfHour_roundToHalfHour

theorem ordered (t u : ClockTime) : Ordered t u :=
  ⟨compare_eq_compare_minutes t u, exists_length_between t u, compare_eq_eq_iff⟩

/-- Whatever is done to a clock that starts at midnight, it comes to the time that the steps lead to,
or to none where they reach a shift past its word. A time that is reached is canonical, and any two
of them are in order. -/
theorem canonical_run (steps steps' : List ClockStep) :
    (∀ t, midnight.run steps = .ok t ↔ ClockStep.Reaches midnight steps t) ∧
    (midnight.run steps = .error .pastWord ↔ ∃ front m back t, steps = front ++ .shift m :: back ∧
      ClockStep.Reaches midnight front t ∧ t.Overflows m) ∧
    (∀ t, midnight.run steps = .ok t → Canonical t) ∧
    ∀ t u, midnight.run steps = .ok t → midnight.run steps' = .ok u → Ordered t u :=
  ⟨fun _ => run_eq_ok_iff, run_eq_error_iff, fun t _ => canonical t, fun t u _ _ => ordered t u⟩

/-- Twenty to midnight is rounded to the half hour before it, no clock shows 24:00, and seventy
minutes after five past nine it is a quarter past ten; another day has a shift past its word. -/
theorem canonical_run_quarter_past_ten :
    midnight.run [.shift (-20), .round, .set 24 0, .enter " 9:05 ", .shift 70] =
      .ok (ofMinutes 615) ∧ Canonical (ofMinutes 615) ∧
    midnight.run [.take ⟨23, 59, 30⟩, .shift (-1439)] = .ok midnight ∧
    Ordered (ofMinutes 615) midnight ∧
    midnight.run [.set 23 59, .shift 2147483647, .round] = .error .pastWord := by
  have hday : midnight.run [.shift (-20), .round, .set 24 0, .enter " 9:05 ", .shift 70] =
      .ok (ofMinutes 615) := by decide
  have hnight : midnight.run [.take ⟨23, 59, 30⟩, .shift (-1439)] = .ok midnight := by decide
  obtain ⟨-, -, hcanonical, hordered⟩ := canonical_run
    [.shift (-20), .round, .set 24 0, .enter " 9:05 ", .shift 70] [.take ⟨23, 59, 30⟩, .shift (-1439)]
  obtain ⟨-, hfault, -⟩ := canonical_run [.set 23 59, .shift 2147483647, .round] []
  refine ⟨hday, hcanonical _ hday, hnight, hordered _ _ hday hnight, ?_⟩
  refine hfault.2 ⟨[.set 23 59], 2147483647, [.round], ofMinutes 1439, rfl, ?_, by decide⟩
  exact .step (.set (ofMinutes 1439)) (.nil _)

end ClockTime

end Shorthand
