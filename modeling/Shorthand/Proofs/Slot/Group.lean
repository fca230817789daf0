import Shorthand.Clock.Text
import Shorthand.Proofs.Slot.Shape
import Shorthand.Proofs.Text.Number

/-!
The groups of a compact range: which time one names, and when one cannot be cut behind its second
byte. `ClockTime.namesCompactTime_compact` says that every time can be written as a group.
-/

namespace Shorthand

open Text

/-- Three or four digits which, with zeros in front of them up to four, are two for the hour and two
for the minute. -/
structure NamesCompactTime (group : List Char) (t : ClockTime) : Prop where
  length : group.length = 3 ∨ group.length = 4
  isDigit : ∀ c ∈ group, c.isDigit = true
  halves : ∃ hour minute, group.leftpad 4 '0' = hour ++ minute ∧ hour.length = 2 ∧
    IsNumeral hour t.hour ∧ IsNumeral minute t.minute

/-- With zeros in front of it up to four characters, the text has no border between two characters
behind its second byte. -/
def CutsInside (group : List Char) : Prop :=
  ¬ ∃ front back, group.leftpad 4 '0' = front ++ back ∧ (String.ofList front).utf8ByteSize = 2

theorem NamesCompactTime.isCompactGroup {group : List Char} {t : ClockTime}
    (h : NamesCompactTime group t) : Shape.isCompactGroup group = true :=
  Shape.isCompactGroup_iff.2 ⟨h.length, fun c hc => isDecimal_of_isDigit (h.isDigit c hc)⟩

/-- A group of digits fails to be read exactly if it is cut inside a character. -/
theorem readCompactTime_eq_error_iff {group : List Char} {fault : ReadFault} :
    readCompactTime group = .error fault ↔ CutsInside group := by
  have hcut : CutsInside group ↔ cutAtByte? 2 (fillToFour group) = none :=
    cutAtByte?_eq_none_iff.symm
  rw [hcut, readCompactTime]
  constructor
  · intro h
    split at h
    · assumption
    · cases h
  · intro h
    rw [h]

/-- Digits of ASCII take a byte each and are never cut inside. -/
theorem not_cutsInside_of_isDigit {group : List Char} (hdigit : ∀ c ∈ group, c.isDigit = true) :
    ¬ CutsInside group := by
  have hpad : ∀ c ∈ group.leftpad 4 '0', c.isDigit = true := by
    intro c hc
    rcases List.mem_append.1 hc with hc | hc
    · rw [List.eq_of_mem_replicate hc]
      decide
    · exact hdigit c hc
  have hsize : (String.ofList ((group.leftpad 4 '0').take 2)).utf8ByteSize = 2 := by
    rw [utf8ByteSize_of_isDigit fun c hc => hpad c (List.mem_of_mem_take hc), List.length_take,
      List.length_leftpad]
    omega
  exact fun h => h ⟨_, _, (List.take_append_drop 2 _).symm, hsize⟩

/-- A group that names a time is read as this time. -/
theorem NamesCompactTime.readCompactTime {group : List Char} {t : ClockTime}
    (h : NamesCompactTime group t) : readCompactTime group = .ok (some t) := by
  obtain ⟨hour, minute, hpad, hlen, hhour, hminute⟩ := h.halves
  have hcut : cutAtByte? 2 (fillToFour group) = some (hour, minute) := by
    rw [cutAtByte?_eq_some_iff]
    exact ⟨hpad, by rw [utf8ByteSize_of_isDigit hhour.isDigit, hlen]⟩
  rw [Shorthand.readCompactTime, hcut]
  show Except.ok ((readNat? hour).bind fun h => (readNat? minute).bind fun m =>
    ClockTime.at? h m) = _
  rw [readNat?_eq_some_iff.2 hhour, readNat?_eq_some_iff.2 hminute]
  exact congrArg Except.ok (ClockTime.at?_eq_some_iff.2 ⟨rfl, rfl⟩)

theorem namesCompactTime_of_readCompactTime {group : List Char} {t : ClockTime}
    (hgroup : Shape.isCompactGroup group = true)
    (h : readCompactTime group = .ok (some t)) : NamesCompactTime group t := by
  unfold readCompactTime at h
  split at h
  · cases h
  · rename_i hour minute hcut
    obtain ⟨hpad, hsize⟩ := cutAtByte?_eq_some_iff.1 hcut
    obtain ⟨n, hn, h⟩ := Option.bind_eq_some_iff.1 (Except.ok.inj h)
    obtain ⟨m, hm, h⟩ := Option.bind_eq_some_iff.1 h
    obtain ⟨rfl, rfl⟩ := ClockTime.at?_eq_some_iff.1 h
    have hhour := readNat?_eq_some_iff.1 hn
    have hminute := readNat?_eq_some_iff.1 hm
    refine ⟨(Shape.isCompactGroup_iff.1 hgroup).1, ?_, hour, minute, hpad, ?_, hhour, hminute⟩
    · intro c hc
      have hmem : c ∈ hour ++ minute := hpad ▸ List.mem_append_right _ hc
      rcases List.mem_append.1 hmem with hc | hc
      · exact hhour.isDigit c hc
      · exact hminute.isDigit c hc
    · rwa [utf8ByteSize_of_isDigit hhour.isDigit] at hsize

/-! ## Times as groups -/

namespace ClockTime

theorem isNumeral_twoDigits {n : Nat} (h : n < 100) : IsNumeral (twoDigits n) n := by
  have hall : ∀ m ∈ List.range 100, readNat? (twoDigits m) = some m := by decide
  exact readNat?_eq_some_iff.1 (hall n (List.mem_range.2 h))

def compact (t : ClockTime) : List Char := twoDigits t.hour ++ twoDigits t.minute

theorem namesCompactTime_compact (t : ClockTime) : NamesCompactTime t.compact t := by
  have hhour := isNumeral_twoDigits (n := t.hour) (by omega)
  have hminute := isNumeral_twoDigits (n := t.minute) (by omega)
  refine ⟨Or.inr rfl, fun c hc => ?_, twoDigits t.hour, twoDigits t.minute, rfl, rfl, hhour,
    hminute⟩
  rcases List.mem_append.1 hc with hc | hc
  · exact hhour.isDigit c hc
  · exact hminute.isDigit c hc

end ClockTime

end Shorthand
