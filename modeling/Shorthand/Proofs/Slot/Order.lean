import Shorthand.Proofs.Slot.Pattern
import Shorthand.Slot.Read

/-!
Time expressions tried in any order. Each reader recognises the texts of one pattern, and no text
matches two of them, so `Slot.readIn` does not depend on its order.
-/

namespace Shorthand

open Text

namespace Shape

variable {f : Form} {s : Shape} {cs : List Char}

def Form.reader : Form → List Char → Option Shape
  | .now => readNow?
  | .fromNow => readFromNow?
  | .amount => readAmount?
  | .compact => readCompact?
  | .between => readBetween?
  | .startAndAmount => readStartAndAmount?

def Form.all : List Form := [.now, .fromNow, .amount, .compact, .between, .startAndAmount]

theorem Form.mem_all (f : Form) : f ∈ Form.all := by
  cases f <;> decide

theorem readers_eq : readers = Form.all.map Form.reader := rfl

theorem Form.reader_mem_readers (f : Form) : f.reader ∈ readers :=
  readers_eq ▸ List.mem_map_of_mem f.mem_all

theorem form_of_reader (h : f.reader cs = some s) : s.form = f := by
  cases f with
  | now =>
    simp only [Form.reader, readNow?] at h
    split at h <;> cases h
    rfl
  | fromNow =>
    obtain ⟨_, -, h⟩ := Option.bind_eq_some_iff.1 h
    obtain ⟨_, -, ⟨⟩⟩ := Option.bind_eq_some_iff.1 h
    rfl
  | amount =>
    obtain ⟨_, -, ⟨⟩⟩ := Option.bind_eq_some_iff.1 h
    rfl
  | compact =>
    simp only [Form.reader, readCompact?] at h
    split at h
    · split at h <;> cases h
      rfl
    · cases h
  | between =>
    obtain ⟨_, -, h⟩ := Option.bind_eq_some_iff.1 h
    dsimp only at h
    split at h
    · cases h
    · obtain ⟨_, -, ⟨⟩⟩ := Option.bind_eq_some_iff.1 h
      rfl
  | startAndAmount =>
    obtain ⟨_, -, h⟩ := Option.bind_eq_some_iff.1 h
    dsimp only at h
    split at h
    · obtain ⟨_, -, ⟨⟩⟩ := Option.bind_eq_some_iff.1 h
      rfl
    · cases h

/-- The reader of a form reads exactly the shapes of this form. -/
theorem reader_eq_some_iff : f.reader cs = some s ↔ s.form = f ∧ s.Spells cs := by
  constructor
  · intro h
    exact ⟨form_of_reader h, spells_of_mem_readers f.reader_mem_readers h⟩
  · rintro ⟨rfl, hspells⟩
    -- The reader that recognises the spelling is the one of the form of what it reads.
    have hmem := readerOf_mem_readers cs
    have hread := hspells.readerOf
    rw [readers_eq] at hmem
    obtain ⟨g, -, hg⟩ := List.mem_map.1 hmem
    rw [← hg] at hread
    rwa [form_of_reader hread]

/-- A reader recognises the texts that match its pattern, and takes from them what the groups of the
pattern keep. -/
theorem reader_eq_some_iff_matches :
    f.reader cs = some s ↔ s.form = f ∧ f.pattern.Matches cs s.captures := by
  rw [reader_eq_some_iff]
  constructor
  · rintro ⟨rfl, hspells⟩
    exact ⟨rfl, matches_of_spells hspells⟩
  · rintro ⟨rfl, hmatches⟩
    obtain ⟨s', hspells, hform, hcaptures⟩ := exists_spells_of_matches hmatches
    exact ⟨rfl, captures_injective hform hcaptures ▸ hspells⟩

/-- Trying the forms finds the shape that the text spells, in any order that has all of them. -/
theorem findSome?_reader {order : List Form} (h : ∀ f, f ∈ order) (cs : List Char) :
    order.findSome? (·.reader cs) = read? cs := by
  apply Option.ext
  intro s
  rw [read?_eq_some_iff]
  constructor
  · intro hs
    obtain ⟨f, -, hread⟩ := List.exists_of_findSome?_eq_some hs
    exact (reader_eq_some_iff.1 hread).2
  · intro hs
    have hread : s.form.reader cs = some s := reader_eq_some_iff.2 ⟨rfl, hs⟩
    have hsome : (order.findSome? (·.reader cs)).isSome = true :=
      List.findSome?_isSome_iff.2 ⟨s.form, h s.form, by rw [hread]; rfl⟩
    -- Another form may come first in this order, but no other form is read.
    obtain ⟨s', hs'⟩ := Option.isSome_iff_exists.1 hsome
    obtain ⟨f, -, hread'⟩ := List.exists_of_findSome?_eq_some hs'
    rw [hs', (reader_eq_some_iff.1 hread').2.unique hs]

end Shape

namespace Slot

open Shape

/-- The slot that a time expression describes when the forms are tried in this order. -/
def readIn (order : List Form) (now : ClockReading) (expression : List Char) :
    Except ReadFault Slot :=
  (order.findSome? (·.reader (lower (trim expression)))).elim (.ok {}) fun shape =>
    (ofShape (ClockTime.ofReading now) shape).map (·.getD {})

/-- In any order that has all forms a time expression describes the same slot. -/
theorem readIn_eq_read {order : List Form} (h : ∀ f, f ∈ order) (now : ClockReading)
    (expression : List Char) : readIn order now expression = read now expression := by
  rw [readIn, findSome?_reader h, read, readChars]
  cases Shape.read? (lower (trim expression)) with
  | none => rfl
  | some shape => rfl

/-- The slot is that of the parts a pattern keeps, whichever pattern matches and in whatever way. -/
theorem read_of_matches {now : ClockReading} {expression : List Char} {f : Form}
    {ks : List (Option (List Char))} (h : f.pattern.Matches (lower (trim expression)) ks) :
    ∃ s : Shape, s.form = f ∧ s.captures = ks ∧
      read now expression = (ofShape (ClockTime.ofReading now) s).map (·.getD {}) := by
  obtain ⟨s, hspells, hform, hcaptures⟩ := exists_spells_of_matches h
  refine ⟨s, hform, hcaptures, ?_⟩
  rw [read, readChars, Shape.read?_eq_some_iff.2 hspells]

/-- A text matches at most one of the six patterns, and keeps the same parts in whatever way it is
matched. The readers recognise just these matches, so the slot of a time expression is that of the
parts kept, in whatever order the forms are tried. -/
theorem shapes_exclusive :
    (∀ (f g : Form) (cs : List Char) (ks ls : List (Option (List Char))),
      f.pattern.Matches cs ks → g.pattern.Matches cs ls → f = g ∧ ks = ls) ∧
    (∀ (f : Form) (cs : List Char) (s : Shape),
      f.reader cs = some s ↔ s.form = f ∧ f.pattern.Matches cs s.captures) ∧
    ∀ (now : ClockReading) (expression : List Char),
      (∀ order : List Form, (∀ f, f ∈ order) →
        readIn order now expression = read now expression) ∧
      ∀ (f : Form) (ks : List (Option (List Char))),
        f.pattern.Matches (lower (trim expression)) ks → ∃ s : Shape, s.form = f ∧
          s.captures = ks ∧
          read now expression = (ofShape (ClockTime.ofReading now) s).map (·.getD {}) :=
  ⟨fun _ _ _ _ _ => matches_unique, fun _ _ _ => reader_eq_some_iff_matches,
    fun now expression => ⟨fun _ h => readIn_eq_read h now expression, fun _ _ => read_of_matches⟩⟩

/-- `9 - 11` matches as two times and as nothing else, and is the slot from nine to eleven when the
forms are tried from the last to the first. -/
theorem shapes_exclusive_nine_to_eleven :
    (∀ g ls, g.pattern.Matches ['9', ' ', '-', ' ', '1', '1'] ls →
      Form.between = g ∧ [some ['9'], none, none, some ['1', '1'], none, none] = ls) ∧
    readIn Form.all.reverse ClockTime.midnight.toReading ['9', ' ', '-', ' ', '1', '1'] =
      .ok (between (ClockTime.ofMinutes 540) (ClockTime.ofMinutes 660)) ∧
    ∃ s : Shape, s.form = .between ∧
      s.captures = [some ['9'], none, none, some ['1', '1'], none, none] ∧
      read ClockTime.midnight.toReading ['9', ' ', '-', ' ', '1', '1'] =
        (ofShape ClockTime.midnight s).map (·.getD {}) := by
  have hread : Form.between.reader ['9', ' ', '-', ' ', '1', '1'] =
      some (.between ⟨['9'], none, none⟩ ⟨['1', '1'], none, none⟩) := by decide
  have hmatches := ((shapes_exclusive.2.1 _ _ _).1 hread).2
  have hslot : read ClockTime.midnight.toReading ['9', ' ', '-', ' ', '1', '1'] =
      .ok (between (ClockTime.ofMinutes 540) (ClockTime.ofMinutes 660)) := by decide
  have hlower : lower (trim ['9', ' ', '-', ' ', '1', '1']) = ['9', ' ', '-', ' ', '1', '1'] := by
    decide
  refine ⟨fun g ls h => shapes_exclusive.1 _ _ _ _ _ hmatches h, ?_,
    (shapes_exclusive.2.2 _ _).2 .between _ (hlower.symm ▸ hmatches)⟩
  rw [(shapes_exclusive.2.2 _ _).1 _ (fun f => List.mem_reverse.2 f.mem_all), hslot]

end Slot

end Shorthand
