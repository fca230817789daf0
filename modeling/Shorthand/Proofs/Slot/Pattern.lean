import Shorthand.Proofs.Slot.Shape
import Shorthand.Proofs.Text.Pattern

/-!
The shapes of time expressions as patterns. What a pattern keeps of a text are the parts of a
spelling (`Shape.matches_of_spells`, `Shape.exists_spells_of_matches`), so by `Shape.matches_unique`
a text matches one pattern at most, and keeps the same parts in whatever way it is matched.
-/

namespace Shorthand

open Text

/-! ## Amounts and times -/

/-- The pattern `(\d+)([hm])`. -/
def Amount.pattern : Pattern :=
  .seq (.group (.run isDecimal 1 none)) (.group (.either (.text ['h']) (.text ['m'])))

/-- The pattern `(?::(\d{2}))?`. -/
def minutePattern : Pattern :=
  .optional (.seq (.text [':']) (.group (.run isDecimal 2 (some 2))))

/-- The pattern `(am|pm)?`. -/
def halfPattern : Pattern :=
  .optional (.group (.either (.text ['a', 'm']) (.text ['p', 'm'])))

/-- The pattern `(\d{1,2})(?::(\d{2}))?\s*(am|pm)?`. -/
def SpokenTime.pattern : Pattern :=
  .seq (.group (.run isDecimal 1 (some 2)))
    (.seq minutePattern (.seq (.run isBlank 0 none) halfPattern))

def Amount.captures (a : Amount) : List (Option (List Char)) :=
  [some a.digits, some [a.unit.letter]]

def SpokenTime.captures (t : SpokenTime) : List (Option (List Char)) :=
  [some t.hour, t.minute, t.half.map Half.letters]

/-- A run of digits that is kept has as many of them as the pattern asks for. -/
theorem matches_digits_iff {least most : Nat} {cs : List Char} {ks : List (Option (List Char))} :
    (Pattern.group (.run isDecimal least (some most))).Matches cs ks ↔
      (∀ c ∈ cs, isDecimal c = true) ∧ least ≤ cs.length ∧ cs.length ≤ most ∧ ks = [some cs] := by
  rw [Pattern.matches_group_iff]
  constructor
  · rintro ⟨ls, hrun, rfl⟩
    obtain ⟨⟨hdec, hleast, hmost⟩, rfl⟩ := Pattern.matches_run_iff.1 hrun
    exact ⟨hdec, hleast, hmost most rfl, rfl⟩
  · rintro ⟨hdec, hleast, hmost, rfl⟩
    exact ⟨[], .run hdec hleast (by simpa using hmost), rfl⟩

theorem TimeUnit.matches_iff {cs : List Char} {ks : List (Option (List Char))} :
    (Pattern.either (.text ['h']) (.text ['m'])).Matches cs ks ↔
      ∃ u : TimeUnit, cs = [u.letter] ∧ ks = [] := by
  rw [Pattern.matches_either_iff rfl rfl, Pattern.matches_text_iff, Pattern.matches_text_iff]
  constructor
  · rintro (h | h)
    · exact ⟨.hours, h⟩
    · exact ⟨.minutes, h⟩
  · rintro ⟨u, h⟩
    cases u with
    | hours => exact Or.inl h
    | minutes => exact Or.inr h

/-- The pattern of an amount matches its spellings, and keeps its digits and its unit. -/
theorem Amount.matches_iff {cs : List Char} {ks : List (Option (List Char))} :
    Amount.pattern.Matches cs ks ↔ ∃ a : Amount, a.Spells cs ∧ a.captures = ks := by
  constructor
  · intro h
    obtain ⟨digits, letter, _, _, hdigits, hletter, rfl, rfl⟩ := Pattern.matches_seq_iff.1 h
    obtain ⟨_, hrun, rfl⟩ := Pattern.matches_group_iff.1 hdigits
    obtain ⟨⟨hdec, hleast, -⟩, rfl⟩ := Pattern.matches_run_iff.1 hrun
    obtain ⟨_, hunit, rfl⟩ := Pattern.matches_group_iff.1 hletter
    obtain ⟨u, rfl, rfl⟩ := TimeUnit.matches_iff.1 hunit
    exact ⟨⟨digits, u⟩, ⟨List.length_pos_iff.1 hleast, hdec, rfl⟩, rfl⟩
  · rintro ⟨a, ⟨hne, hdec, rfl⟩, rfl⟩
    have hdigits : (Pattern.run isDecimal 1 none).Matches a.digits [] :=
      .run hdec (List.length_pos_iff.2 hne) (by simp)
    exact .seq (.group hdigits) (.group (TimeUnit.matches_iff.2 ⟨a.unit, rfl, rfl⟩))

theorem matches_minutePattern_iff {cs : List Char} {ks : List (Option (List Char))} :
    minutePattern.Matches cs ks ↔
      ∃ minute : Option (List Char), (∀ digits ∈ minute, digits.length = 2) ∧
        (∀ digits ∈ minute, ∀ c ∈ digits, isDecimal c = true) ∧
        cs = minute.elim [] (':' :: ·) ∧ ks = [minute] := by
  rw [minutePattern, Pattern.matches_optional_iff]
  constructor
  · rintro (⟨rfl, rfl⟩ | h)
    · exact ⟨none, by simp, by simp, rfl, rfl⟩
    · obtain ⟨_, digits, _, _, hcolon, hdigits, rfl, rfl⟩ := Pattern.matches_seq_iff.1 h
      obtain ⟨rfl, rfl⟩ := Pattern.matches_text_iff.1 hcolon
      obtain ⟨hdec, hleast, hmost, rfl⟩ := matches_digits_iff.1 hdigits
      have hlen : digits.length = 2 := Nat.le_antisymm hmost hleast
      exact ⟨some digits, by simpa using hlen, by simpa using hdec, rfl, rfl⟩
  · rintro ⟨minute, hlen, hdec, rfl, rfl⟩
    cases minute with
    | none => exact Or.inl ⟨rfl, rfl⟩
    | some digits =>
      have htwo : digits.length = 2 := hlen digits rfl
      have hdigits := matches_digits_iff.2 ⟨hdec digits rfl, htwo.ge, htwo.le, rfl⟩
      exact Or.inr (.seq (.text [':']) hdigits)

theorem matches_halfPattern_iff {cs : List Char} {ks : List (Option (List Char))} :
    halfPattern.Matches cs ks ↔
      ∃ half : Option Half, cs = half.elim [] Half.letters ∧ ks = [half.map Half.letters] := by
  rw [halfPattern, Pattern.matches_optional_iff]
  constructor
  · rintro (⟨rfl, rfl⟩ | h)
    · exact ⟨none, rfl, rfl⟩
    · obtain ⟨_, hletters, rfl⟩ := Pattern.matches_group_iff.1 h
      rcases (Pattern.matches_either_iff rfl rfl).1 hletters with ham | hpm
      · obtain ⟨rfl, rfl⟩ := Pattern.matches_text_iff.1 ham
        exact ⟨some .am, rfl, rfl⟩
      · obtain ⟨rfl, rfl⟩ := Pattern.matches_text_iff.1 hpm
        exact ⟨some .pm, rfl, rfl⟩
  · rintro ⟨half, rfl, rfl⟩
    rcases half with _ | _ | _
    · exact Or.inl ⟨rfl, rfl⟩
    · exact Or.inr (.group (.first (.text ['a', 'm'])))
    · exact Or.inr (.group (.second (.text ['p', 'm'])))

/-- The pattern of a time matches its spellings, and keeps its digits and its half of the day. -/
theorem SpokenTime.matches_iff {cs : List Char} {ks : List (Option (List Char))} :
    SpokenTime.pattern.Matches cs ks ↔ ∃ t : SpokenTime, t.Spells cs ∧ t.captures = ks := by
  constructor
  · intro h
    obtain ⟨hour, _, _, _, hhour, hbehind, rfl, rfl⟩ := Pattern.matches_seq_iff.1 h
    obtain ⟨hdec, hleast, hmost, rfl⟩ := matches_digits_iff.1 hhour
    obtain ⟨_, _, _, _, hminute, hlast, rfl, rfl⟩ := Pattern.matches_seq_iff.1 hbehind
    obtain ⟨minute, hlen, hmin, rfl, rfl⟩ := matches_minutePattern_iff.1 hminute
    obtain ⟨blanks, _, _, _, hblanks, hhalf, rfl, rfl⟩ := Pattern.matches_seq_iff.1 hlast
    obtain ⟨⟨hb, -, -⟩, rfl⟩ := Pattern.matches_run_iff.1 hblanks
    obtain ⟨half, rfl, rfl⟩ := matches_halfPattern_iff.1 hhalf
    have hdigits : hour.length = 1 ∨ hour.length = 2 := by omega
    refine ⟨⟨hour, minute, half⟩, ⟨⟨hdigits, hdec, hlen, hmin⟩, blanks, hb, ?_⟩, rfl⟩
    cases minute <;> cases half <;> simp [face, suffix]
  · rintro ⟨t, ⟨hface, blanks, hb, rfl⟩, rfl⟩
    have hlen := hface.length_hour
    have hhour := matches_digits_iff.2
      ⟨hface.isDecimal_hour, (by omega : 1 ≤ _), (by omega : _ ≤ 2), rfl⟩
    have hminute := matches_minutePattern_iff.2
      ⟨t.minute, hface.length_minute, hface.isDecimal_minute, rfl, rfl⟩
    have hblanks : (Pattern.run isBlank 0 none).Matches blanks [] :=
      .run hb (Nat.zero_le _) (by simp)
    have hhalf := matches_halfPattern_iff.2 ⟨t.half, rfl, rfl⟩
    have hall := Pattern.Matches.seq hhour (.seq hminute (.seq hblanks hhalf))
    -- The parts one after the other are the face, the blanks and the half of the day.
    have hcs : t.hour ++ (t.minute.elim [] (':' :: ·) ++ (blanks ++ t.half.elim [] Half.letters)) =
        t.face ++ (blanks ++ t.suffix) := by
      obtain ⟨hour, minute, half⟩ := t
      cases minute <;> cases half <;> simp [face, suffix]
    rw [hcs] at hall
    exact hall

/-! ### Parts as they are written -/

theorem TimeUnit.letter_injective : Function.Injective TimeUnit.letter := by
  intro u u' h
  have hread : TimeUnit.ofChar? u.letter = some u' := TimeUnit.ofChar?_eq_some_iff.2 h
  rw [TimeUnit.ofChar?_eq_some_iff.2 rfl] at hread
  exact Option.some.inj hread

theorem Half.letters_injective : Function.Injective Half.letters := by
  intro half half' h
  have hread : Half.read? half.letters = some (half', []) :=
    Half.read?_eq_some_iff.2 (by rw [h, List.append_nil])
  rw [Half.read?_eq_some_iff.2 (List.append_nil _).symm] at hread
  exact congrArg Prod.fst (Option.some.inj hread)

theorem Amount.captures_injective : Function.Injective Amount.captures := by
  rintro ⟨digits, unit⟩ ⟨digits', unit'⟩ h
  obtain ⟨rfl, hletter⟩ : digits = digits' ∧ unit.letter = unit'.letter := by
    simpa [captures] using h
  rw [TimeUnit.letter_injective hletter]

theorem SpokenTime.captures_injective : Function.Injective SpokenTime.captures := by
  rintro ⟨hour, minute, half⟩ ⟨hour', minute', half'⟩ h
  obtain ⟨rfl, rfl, hletters⟩ :
      hour = hour' ∧ minute = minute' ∧ half.map Half.letters = half'.map Half.letters := by
    simpa [captures] using h
  rw [Option.map_injective Half.letters_injective hletters]

/-! ## Shapes -/

namespace Shape

inductive Form where
  | now
  | fromNow
  | amount
  | compact
  | between
  | startAndAmount
deriving DecidableEq, Repr

def form : Shape → Form
  | .now => .now
  | .fromNow _ => .fromNow
  | .amount _ => .amount
  | .compact _ _ => .compact
  | .between _ _ => .between
  | .startAndAmount _ _ => .startAndAmount

def captures : Shape → List (Option (List Char))
  | .now => []
  | .fromNow a => a.captures
  | .amount a => a.captures
  | .compact start finish => [some start, some finish]
  | .between t u => t.captures ++ u.captures
  | .startAndAmount t a => t.captures ++ a.captures

/-- The patterns `now`, `now\+(\d+)([hm])`, `(\d+)([hm])`, `(\d{3,4})-(\d{3,4})`, two times with
`[\s-]+` between them, and a time and an amount with a hyphen between them. -/
def Form.pattern : Form → Pattern
  | .now => .text ['n', 'o', 'w']
  | .fromNow => .seq (.text ['n', 'o', 'w', '+']) Amount.pattern
  | .amount => Amount.pattern
  | .compact => .seq (.group (.run isDecimal 3 (some 4)))
      (.seq (.text ['-']) (.group (.run isDecimal 3 (some 4))))
  | .between => .seq SpokenTime.pattern (.seq (.run isGap 1 none) SpokenTime.pattern)
  | .startAndAmount => .seq SpokenTime.pattern (.seq (.text ['-']) Amount.pattern)

variable {f g : Form} {s s' : Shape} {cs : List Char} {ks ls : List (Option (List Char))}

theorem matches_compactGroup_iff :
    (Pattern.group (.run isDecimal 3 (some 4))).Matches cs ks ↔
      isCompactGroup cs = true ∧ ks = [some cs] := by
  rw [matches_digits_iff, isCompactGroup_iff]
  constructor
  · rintro ⟨hdec, hleast, hmost, rfl⟩
    exact ⟨⟨by omega, hdec⟩, rfl⟩
  · rintro ⟨⟨hlen, hdec⟩, rfl⟩
    exact ⟨hdec, by omega, by omega, rfl⟩

/-- Every spelling of a shape matches the pattern of its form, and the parts of the shape are kept.
-/
theorem matches_of_spells (h : s.Spells cs) : s.form.pattern.Matches cs s.captures := by
  cases h with
  | now => exact .text _
  | fromNow ha =>
    exact .seq (.text ['n', 'o', 'w', '+']) (Amount.matches_iff.2 ⟨_, ha, rfl⟩)
  | amount ha => exact Amount.matches_iff.2 ⟨_, ha, rfl⟩
  | compact hs hf =>
    exact .seq (matches_compactGroup_iff.2 ⟨hs, rfl⟩)
      (.seq (.text ['-']) (matches_compactGroup_iff.2 ⟨hf, rfl⟩))
  | between ht hne hgap hu =>
    have hrun : (Pattern.run isGap 1 none).Matches _ [] :=
      .run hgap (List.length_pos_iff.2 hne) (by simp)
    exact .seq (SpokenTime.matches_iff.2 ⟨_, ht, rfl⟩)
      (.seq hrun (SpokenTime.matches_iff.2 ⟨_, hu, rfl⟩))
  | startAndAmount ht ha =>
    exact .seq (SpokenTime.matches_iff.2 ⟨_, ht, rfl⟩)
      (.seq (.text ['-']) (Amount.matches_iff.2 ⟨_, ha, rfl⟩))

/-- Every match of a pattern is a spelling of a shape of this form with the parts that are kept. -/
theorem exists_spells_of_matches (h : f.pattern.Matches cs ks) :
    ∃ s : Shape, s.Spells cs ∧ s.form = f ∧ s.captures = ks := by
  -- One case a form: its pattern is opened from left to right, and each part is read by its own
  -- lemma.
  cases f with
  | now =>
    obtain ⟨rfl, rfl⟩ := Pattern.matches_text_iff.1 h
    exact ⟨.now, .now, rfl, rfl⟩
  | fromNow =>
    obtain ⟨_, _, _, _, hnow, hamount, rfl, rfl⟩ := Pattern.matches_seq_iff.1 h
    obtain ⟨rfl, rfl⟩ := Pattern.matches_text_iff.1 hnow
    obtain ⟨a, ha, rfl⟩ := Amount.matches_iff.1 hamount
    exact ⟨.fromNow a, .fromNow ha, rfl, rfl⟩
  | amount =>
    obtain ⟨a, ha, rfl⟩ := Amount.matches_iff.1 h
    exact ⟨.amount a, .amount ha, rfl, rfl⟩
  | compact =>
    obtain ⟨start, _, _, _, hstart, hrest, rfl, rfl⟩ := Pattern.matches_seq_iff.1 h
    obtain ⟨_, finish, _, _, hhyphen, hfinish, rfl, rfl⟩ := Pattern.matches_seq_iff.1 hrest
    obtain ⟨hs, rfl⟩ := matches_compactGroup_iff.1 hstart
    obtain ⟨rfl, rfl⟩ := Pattern.matches_text_iff.1 hhyphen
    obtain ⟨hf, rfl⟩ := matches_compactGroup_iff.1 hfinish
    exact ⟨.compact start finish, .compact hs hf, rfl, rfl⟩
  | between =>
    obtain ⟨_, _, _, _, hstart, hrest, rfl, rfl⟩ := Pattern.matches_seq_iff.1 h
    obtain ⟨gap, _, _, _, hrun, hfinish, rfl, rfl⟩ := Pattern.matches_seq_iff.1 hrest
    obtain ⟨t, ht, rfl⟩ := SpokenTime.matches_iff.1 hstart
    obtain ⟨⟨hgap, hleast, -⟩, rfl⟩ := Pattern.matches_run_iff.1 hrun
    obtain ⟨u, hu, rfl⟩ := SpokenTime.matches_iff.1 hfinish
    exact ⟨.between t u, .between ht (List.length_pos_iff.1 hleast) hgap hu, rfl, rfl⟩
  | startAndAmount =>
    obtain ⟨_, _, _, _, hstart, hrest, rfl, rfl⟩ := Pattern.matches_seq_iff.1 h
    obtain ⟨_, _, _, _, hhyphen, hamount, rfl, rfl⟩ := Pattern.matches_seq_iff.1 hrest
    obtain ⟨t, ht, rfl⟩ := SpokenTime.matches_iff.1 hstart
    obtain ⟨rfl, rfl⟩ := Pattern.matches_text_iff.1 hhyphen
    obtain ⟨a, ha, rfl⟩ := Amount.matches_iff.1 hamount
    exact ⟨.startAndAmount t a, .startAndAmount ht ha, rfl, rfl⟩

/-- No text matches two patterns, or one in two ways. -/
theorem matches_unique (h : f.pattern.Matches cs ks) (h' : g.pattern.Matches cs ls) :
    f = g ∧ ks = ls := by
  obtain ⟨s, hspells, rfl, rfl⟩ := exists_spells_of_matches h
  obtain ⟨s', hspells', rfl, rfl⟩ := exists_spells_of_matches h'
  obtain rfl := hspells.unique hspells'
  exact ⟨rfl, rfl⟩

/-- The parts that are kept tell shapes of one form apart. -/
theorem captures_injective (hform : s.form = s'.form) (h : s.captures = s'.captures) : s = s' := by
  -- Shapes of one form keep equally many parts of each time, so the lists are cut alike.
  cases s <;> cases s' <;> cases hform
  case now => rfl
  case fromNow a a' => rw [Amount.captures_injective h]
  case amount a a' => rw [Amount.captures_injective h]
  case compact x y x' y' =>
    obtain ⟨rfl, rfl⟩ : x = x' ∧ y = y' := by simpa [captures] using h
    rfl
  case between t u t' u' =>
    obtain ⟨ht, hu⟩ := List.append_inj h rfl
    rw [SpokenTime.captures_injective ht, SpokenTime.captures_injective hu]
  case startAndAmount t a t' a' =>
    obtain ⟨ht, ha⟩ := List.append_inj h rfl
    rw [SpokenTime.captures_injective ht, Amount.captures_injective ha]

end Shape

end Shorthand
