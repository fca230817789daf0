import Mathlib.Algebra.BigOperators.Group.List.Basic
import Mathlib.Data.Int.ModEq
import Shorthand.Clock.Time
import Shorthand.Proofs.Chain

/-!
Shifts of a clock time by signed 32-bit words. The sum is kept in such a word before it is taken
around the circle, and `ClockTime.shift_exact_iff` says what that costs: a shift is exact, but one
whose sum is past the word gives no time.
-/

namespace Shorthand

namespace ClockTime

/-- The time in minutes and the shift have a sum past a signed 32-bit word. -/
def Overflows (t : ClockTime) (m : Int32) : Prop := 2147483647 < (t.minutes : Int) + m.toInt

instance (t : ClockTime) (m : Int32) : Decidable (t.Overflows m) :=
  inferInstanceAs (Decidable (_ < _))

def shifted (t : ClockTime) (ms : List Int32) : Except SumFault ClockTime :=
  ms.foldlM (fun u m => u.shift m.toInt) t

/-- None of some shifts overflows behind those in front of it, which start `n` minutes after some
midnight. -/
def Fits (n : Int) (ms : List Int32) : Prop :=
  ∀ front m back, ms = front ++ m :: back →
    (n + (front.map Int32.toInt).sum) % 1440 + m.toInt ≤ 2147483647

variable {t u v : ClockTime} {m : Int32} {ms ms' : List Int32}

/-- Two times of day that differ by whole days are one. -/
theorem eq_of_minutes_modEq (h : (t.minutes : Int) ≡ u.minutes [ZMOD 1440]) : t = u := by
  have ht := t.minutes_lt
  have hu := u.minutes_lt
  rw [Int.modEq_iff_dvd] at h
  apply minutes_injective
  omega

/-! ## One shift -/

/-- The sum of a time and a shift cannot be below a signed 32-bit word. -/
theorem minutes_add_toInt_ge (t : ClockTime) (m : Int32) :
    -2147483648 ≤ (t.minutes : Int) + m.toInt := by
  have hlo : -2147483648 ≤ m.toInt := m.le_toInt
  omega

/-- A shift by a word leads to the time that is right around the circle, unless the sum overflows.
-/
theorem shift_toInt_eq_ok_iff : t.shift m.toInt = .ok u ↔
    ¬ t.Overflows m ∧ (u.minutes : Int) ≡ t.minutes + m.toInt [ZMOD 1440] := by
  have hu := u.minutes_lt
  have hlo := t.minutes_add_toInt_ge m
  rw [shift_eq_ok_iff, and_iff_right hlo, Overflows, Int.not_lt]
  refine and_congr_right fun _ => ?_
  rw [Int.ModEq]
  omega

/-- There is a time a shift away exactly if the sum does not overflow. -/
theorem exists_shift_iff : (∃ u, t.shift m.toInt = .ok u) ↔ ¬ t.Overflows m := by
  constructor
  · rintro ⟨u, hu⟩
    exact (shift_toInt_eq_ok_iff.1 hu).1
  · intro h
    refine ⟨ofMinutes ((t.minutes + m.toInt) % 1440).toNat, shift_toInt_eq_ok_iff.2 ⟨h, ?_⟩⟩
    rw [minutes_ofMinutes, Int.ModEq]
    omega

theorem shift_toInt_eq_error_iff {e : SumFault} :
    t.shift m.toInt = .error e ↔ t.Overflows m := by
  rw [← not_iff_not, ← exists_shift_iff]
  cases e
  cases hshift : t.shift m.toInt with
  | ok u => exact iff_of_true nofun ⟨u, rfl⟩
  | error e =>
    cases e
    exact iff_of_false (fun h => h rfl) fun ⟨u, hu⟩ => nomatch hu

/-! ## Any number of shifts -/

theorem fits_nil (n : Int) : Fits n [] := by
  intro front m back h
  exact absurd h.symm (List.append_ne_nil_of_right_ne_nil front (List.cons_ne_nil m back))

/-- Some shifts fit if the first one does, and the others do from where it leads. -/
theorem fits_cons {n : Int} :
    Fits n (m :: ms) ↔ n % 1440 + m.toInt ≤ 2147483647 ∧ Fits (n + m.toInt) ms := by
  constructor
  · intro h
    refine ⟨?_, fun front k back hms => ?_⟩
    · have hfirst := h [] m ms rfl
      rwa [List.map_nil, List.sum_nil, Int.add_zero] at hfirst
    · have hlater := h (m :: front) k back (by rw [hms, List.cons_append])
      rwa [List.map_cons, List.sum_cons, ← Int.add_assoc] at hlater
  · rintro ⟨hfirst, hrest⟩ front k back hms
    cases front with
    | nil =>
      obtain ⟨rfl, -⟩ := List.cons_eq_cons.1 hms
      rwa [List.map_nil, List.sum_nil, Int.add_zero]
    | cons m' front =>
      obtain ⟨rfl, hback⟩ := List.cons_eq_cons.1 hms
      rw [List.map_cons, List.sum_cons, ← Int.add_assoc]
      exact hrest front k back hback

/-- Only the time of day counts, not the day. -/
theorem fits_congr {n k : Int} (h : n ≡ k [ZMOD 1440]) : Fits n ms ↔ Fits k ms := by
  have hsum (front : List Int32) : (n + (front.map Int32.toInt).sum) % 1440 =
      (k + (front.map Int32.toInt).sum) % 1440 := h.add_right _
  simp only [Fits, hsum]

theorem fits_minutes_cons : Fits t.minutes (m :: ms) ↔
    ¬ t.Overflows m ∧ Fits (t.minutes + m.toInt) ms := by
  have ht := t.minutes_lt
  rw [fits_cons, Overflows, Int.not_lt, Int.emod_eq_of_lt (by omega) (by omega)]

/-- A run of shifts leads to a time if none of them overflows where it is reached, and then to the
one that the exact sum of all of them leads to. -/
theorem shifted_eq_ok_iff : t.shifted ms = .ok u ↔
    Fits t.minutes ms ∧ (u.minutes : Int) ≡ t.minutes + (ms.map Int32.toInt).sum [ZMOD 1440] := by
  -- By induction on the shifts, from the time that the first one leads to.
  induction ms generalizing t with
  | nil =>
    rw [List.map_nil, List.sum_nil, Int.add_zero, and_iff_right (fits_nil _)]
    constructor
    · rintro ⟨⟩
      rfl
    · intro h
      rw [eq_of_minutes_modEq h]
      rfl
  | cons m ms ih =>
    have hrun : t.shifted (m :: ms) = t.shift m.toInt >>= (·.shifted ms) := List.foldlM_cons
    rw [hrun, bind_eq_ok_iff, fits_minutes_cons, List.map_cons, List.sum_cons, and_assoc,
      ← Int.add_assoc]
    constructor
    · rintro ⟨v, hv, hrest⟩
      obtain ⟨hfirst, hstep⟩ := shift_toInt_eq_ok_iff.1 hv
      obtain ⟨hfits, hmod⟩ := ih.1 hrest
      exact ⟨hfirst, (fits_congr hstep).1 hfits, hmod.trans (hstep.add_right _)⟩
    · rintro ⟨hfirst, hfits, hmod⟩
      obtain ⟨v, hv⟩ := exists_shift_iff.2 hfirst
      have hstep := (shift_toInt_eq_ok_iff.1 hv).2
      exact ⟨v, hv, ih.2 ⟨(fits_congr hstep).2 hfits, hmod.trans (hstep.add_right _).symm⟩⟩

/-- Some shifts together lead to a time exactly if they fit. -/
theorem exists_shifted_iff : (∃ u, t.shifted ms = .ok u) ↔ Fits t.minutes ms := by
  constructor
  · rintro ⟨u, hu⟩
    exact (shifted_eq_ok_iff.1 hu).1
  · intro h
    refine ⟨ofMinutes ((t.minutes + (ms.map Int32.toInt).sum) % 1440).toNat,
      shifted_eq_ok_iff.2 ⟨h, ?_⟩⟩
    rw [minutes_ofMinutes, Int.ModEq]
    omega

/-- Shifts in another order come out alike exactly if they give a time in both orders or in
neither. -/
theorem shifted_eq_shifted_iff_of_perm (h : ms.Perm ms') (t : ClockTime) :
    t.shifted ms = t.shifted ms' ↔ (Fits t.minutes ms ↔ Fits t.minutes ms') := by
  have hsum : (ms.map Int32.toInt).sum = (ms'.map Int32.toInt).sum := (h.map Int32.toInt).sum_eq
  constructor
  · intro heq
    rw [← exists_shifted_iff, ← exists_shifted_iff, heq]
  · intro hiff
    by_cases hfits : Fits t.minutes ms
    · obtain ⟨u, hu⟩ := exists_shifted_iff.2 hfits
      have hu' : t.shifted ms' = .ok u :=
        shifted_eq_ok_iff.2 ⟨hiff.1 hfits, hsum ▸ (shifted_eq_ok_iff.1 hu).2⟩
      rw [hu, hu']
    · have hfits' : ¬ Fits t.minutes ms' := mt hiff.2 hfits
      rw [← exists_shifted_iff] at hfits hfits'
      -- There is only one fault.
      cases hms : t.shifted ms with
      | ok u => exact absurd ⟨u, hms⟩ hfits
      | error e =>
        cases hms' : t.shifted ms' with
        | ok u => exact absurd ⟨u, hms'⟩ hfits'
        | error e' =>
          cases e
          cases e'
          rfl

/-- A shift gives the time that is right around the circle of a day, unless its sum is past a signed
32-bit word: then it gives none. Two shifts lead to the right time if neither sum is past the word,
and they can change places if they give a time in both orders or in neither. Any number of shifts is
right in the same way, if none of them is past the word where it is reached. -/
theorem shift_exact_iff (t : ClockTime) :
    (∀ (m : Int32) (u : ClockTime), t.shift m.toInt = .ok u ↔
      t.minutes + m.toInt ≤ 2147483647 ∧ (u.minutes : Int) ≡ t.minutes + m.toInt [ZMOD 1440]) ∧
    (∀ m : Int32, t.shift m.toInt = .error .pastWord ↔ 2147483647 < t.minutes + m.toInt) ∧
    (∀ (a b : Int32) (u : ClockTime), (t.shift a.toInt >>= fun v => v.shift b.toInt) = .ok u ↔
      t.minutes + a.toInt ≤ 2147483647 ∧ (t.minutes + a.toInt) % 1440 + b.toInt ≤ 2147483647 ∧
        (u.minutes : Int) ≡ t.minutes + a.toInt + b.toInt [ZMOD 1440]) ∧
    (∀ a b : Int32, (t.shift a.toInt >>= fun v => v.shift b.toInt) =
      (t.shift b.toInt >>= fun v => v.shift a.toInt) ↔
        (Fits t.minutes [a, b] ↔ Fits t.minutes [b, a])) ∧
    ∀ (ms : List Int32) (u : ClockTime), t.shifted ms = .ok u ↔
      Fits t.minutes ms ∧
        (u.minutes : Int) ≡ t.minutes + (ms.map Int32.toInt).sum [ZMOD 1440] := by
  have hpair (a b : Int32) :
      (t.shift a.toInt >>= fun v => v.shift b.toInt) = t.shifted [a, b] := by
    show _ = t.shift a.toInt >>= fun v => v.shift b.toInt >>= pure
    simp only [bind_pure]
  refine ⟨fun m u => ?_, fun m => shift_toInt_eq_error_iff, fun a b u => ?_, fun a b => ?_,
    fun ms u => shifted_eq_ok_iff⟩
  · rw [shift_toInt_eq_ok_iff, Overflows, Int.not_lt]
  · rw [hpair, shifted_eq_ok_iff, fits_minutes_cons, Overflows, Int.not_lt, fits_cons,
      and_iff_left (fits_nil _), List.map_cons, List.map_singleton, List.sum_cons,
      List.sum_singleton, ← Int.add_assoc, and_assoc]
  · rw [hpair, hpair]
    exact shifted_eq_shifted_iff_of_perm (List.Perm.swap b a []) t

/-- A minute before midnight, the largest shift gives no time in place of six past two in the
morning; behind a shift back to midnight there is one. -/
theorem shift_past_word :
    (ofMinutes 1439).shift (2147483647 : Int32).toInt = .error .pastWord ∧
    ((ofMinutes 126).minutes : Int) ≡
      (ofMinutes 1439).minutes + (2147483647 : Int32).toInt [ZMOD 1440] ∧
    ((ofMinutes 1439).shift (2147483647 : Int32).toInt >>= fun v => v.shift (-1439 : Int32).toInt) ≠
      ((ofMinutes 1439).shift (-1439 : Int32).toInt >>= fun v =>
        v.shift (2147483647 : Int32).toInt) := by
  decide

end ClockTime

end Shorthand
