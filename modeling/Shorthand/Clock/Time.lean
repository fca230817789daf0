import Shorthand.Number.Sum

/-!
Times of day on the minute. They are counted in minutes since midnight, on a circle of 1440:
`ofMinutes_minutes` and `minutes_ofMinutes` pass between the two readings, and `shift_eq_ok_iff`
says which shifts there are and where they land.
-/

namespace Shorthand

/-- What a clock shows: a time of day to the second. -/
structure ClockReading where
  hour : Fin 24
  minute : Fin 60
  second : Fin 60
deriving DecidableEq, Repr

/-- A time of day on the minute. -/
structure ClockTime where
  hour : Fin 24
  minute : Fin 60
deriving DecidableEq, Repr

namespace ClockTime

@[ext]
theorem ext {t u : ClockTime} (hour : t.hour = u.hour) (minute : t.minute = u.minute) : t = u := by
  cases t
  cases u
  simp_all

def at? (hour minute : Nat) : Option ClockTime :=
  if h : hour < 24 ∧ minute < 60 then some ⟨⟨hour, h.1⟩, ⟨minute, h.2⟩⟩ else none

def midnight : ClockTime := ⟨0, 0⟩

def ofReading (r : ClockReading) : ClockTime := ⟨r.hour, r.minute⟩

def toReading (t : ClockTime) : ClockReading := ⟨t.hour, t.minute, 0⟩

def minutes (t : ClockTime) : Nat := t.hour * 60 + t.minute

/-- The time reached after `n` minutes from midnight, around the circle of a day. -/
def ofMinutes (n : Nat) : ClockTime :=
  ⟨⟨n / 60 % 24, Nat.mod_lt _ (by decide)⟩, ⟨n % 60, Nat.mod_lt _ (by decide)⟩⟩

/-- The time `by` minutes later, or earlier when `by` is negative, around the circle of a day. The
sum is kept in a signed 32-bit word before it is taken around the circle. -/
def shift (t : ClockTime) (by_ : Int) : Except SumFault ClockTime :=
  (inInt32 (t.minutes + by_)).map fun sum => ofMinutes (sum % 1440).toNat

/-- The nearest half hour; a quarter past or a quarter to goes to the later one. -/
def roundToHalfHour (t : ClockTime) : ClockTime :=
  ofMinutes ((t.minutes + 15) / 30 * 30)

theorem minutes_lt (t : ClockTime) : t.minutes < 1440 := by
  have hh := t.hour.isLt
  have hm := t.minute.isLt
  simp only [minutes]
  omega

/-- After whole days the time is the same. -/
@[simp]
theorem minutes_ofMinutes (n : Nat) : (ofMinutes n).minutes = n % 1440 := by
  simp only [minutes, ofMinutes]
  omega

@[simp]
theorem ofMinutes_minutes (t : ClockTime) : ofMinutes t.minutes = t := by
  have hh := t.hour.isLt
  have hm := t.minute.isLt
  apply ClockTime.ext <;> apply Fin.ext <;> simp only [minutes, ofMinutes] <;> omega

/-- A time of day is known by its minutes since midnight. -/
theorem minutes_injective {t u : ClockTime} (h : t.minutes = u.minutes) : t = u := by
  rw [← ofMinutes_minutes t, h, ofMinutes_minutes]

@[simp]
theorem ofReading_toReading (t : ClockTime) : ofReading t.toReading = t := rfl

theorem at?_eq_some_iff {hour minute : Nat} {t : ClockTime} :
    at? hour minute = some t ↔ hour = t.hour ∧ minute = t.minute := by
  rw [at?]
  split
  · rename_i h
    constructor
    · rintro ⟨⟩
      exact ⟨rfl, rfl⟩
    · rintro ⟨rfl, rfl⟩
      rfl
  · rename_i h
    constructor
    · intro hnone
      cases hnone
    · rintro ⟨rfl, rfl⟩
      exact absurd ⟨t.hour.isLt, t.minute.isLt⟩ h

/-- Earlier times of day come first: the hour decides, and the minute within one hour. -/
instance : Ord ClockTime where
  compare t u := (compare t.hour.val u.hour.val).then (compare t.minute.val u.minute.val)

/-- A shift is exact around the circle, and there is one if the sum fits its word. -/
theorem shift_eq_ok_iff {t u : ClockTime} {by_ : Int} : t.shift by_ = .ok u ↔
    (-2147483648 ≤ t.minutes + by_ ∧ t.minutes + by_ ≤ 2147483647) ∧
      (u.minutes : Int) = (t.minutes + by_) % 1440 := by
  have hland (sum : Int) : ofMinutes (sum % 1440).toNat = u ↔ (u.minutes : Int) = sum % 1440 := by
    constructor
    · rintro rfl
      rw [minutes_ofMinutes]
      omega
    · intro h
      rw [← h, Int.toNat_natCast, ofMinutes_minutes]
  rw [shift]
  cases hsum : inInt32 (t.minutes + by_) with
  | ok sum =>
    obtain ⟨hfits, rfl⟩ := inInt32_eq_ok_iff.1 hsum
    rw [Except.map, Except.ok.injEq, hland, and_iff_right hfits]
  | error e =>
    exact iff_of_false nofun fun h => inInt32_eq_error_iff.1 hsum h.1

end ClockTime

end Shorthand
