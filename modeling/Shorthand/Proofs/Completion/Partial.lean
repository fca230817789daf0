import Shorthand.Completion.Offer
import Shorthand.Proofs.Command.BlockLine
import Shorthand.Proofs.Text.Lower

/-!
Partly typed lines as the rules of completions see them: their words, the text that a line begins
with, and the line with more behind it.
-/

namespace Shorthand

open Text

namespace Partial

variable {line : List Char}

theorem words_ofLine (line : List Char) : (ofLine line).words = (Text.words line).map lower := by
  show Text.words (lower (trimStart line)) = _
  rw [words_lower, words_trimStart]

theorem length_words_ofLine (line : List Char) :
    (ofLine line).words.length = (Text.words line).length := by
  rw [words_ofLine, List.length_map]

/-- A line that begins with a text without blanks has a first word that does. -/
theorem exists_first_of_front {front : List Char} (hne : front ≠ [])
    (hfront : ∀ c ∈ front, isBlank c = false) (h : front <+: (ofLine line).lowered) :
    ∃ first rest, Text.words line = first :: rest ∧ front <+: lower first := by
  obtain ⟨w, ws, hwords, hw⟩ := exists_words_of_front hne hfront h
  rw [show Text.words (ofLine line).lowered = _ from words_ofLine line] at hwords
  obtain ⟨first, rest, hline, rfl, rfl⟩ := List.map_eq_cons_iff.1 hwords
  exact ⟨first, rest, hline, hw⟩

/-- A line that begins with a word and a blank has that word as its first one. -/
theorem exists_first_of_keyword {name : List Char} (hne : name ≠ [])
    (hname : ∀ c ∈ name, isBlank c = false) (h : name ++ [' '] <+: (ofLine line).lowered) :
    ∃ first rest, Text.words line = first :: rest ∧ lower first = name := by
  obtain ⟨back, hback⟩ := h
  have hwords : Text.words (ofLine line).lowered = name :: Text.words back := by
    rw [← hback, List.append_assoc, List.singleton_append,
      words_append_blank (by decide : isBlank ' ' = true), words_eq_singleton hne hname]
    rfl
  rw [show Text.words (ofLine line).lowered = _ from words_ofLine line] at hwords
  obtain ⟨first, rest, hline, hfirst, -⟩ := List.map_eq_cons_iff.1 hwords
  exact ⟨first, rest, hline, hfirst⟩

/-- What stands behind a line in a text of its own adds words of its own. -/
theorem words_followedBy {more : String} (hmore : more.toList.head?.all isBlank = true)
    (line : List Char) : Text.words ((ofLine line).followedBy more).toList =
      Text.words line ++ Text.words more.toList := by
  have hblank : ∀ c ∈ more.toList.head?, isBlank c = true := Option.all_eq_true _ _ |>.1 hmore
  rw [followedBy, String.toList_ofList, words_append_of_blank_head hblank]
  show Text.words (trim line) ++ _ = _
  rw [words_trim]

/-- A line begins with one of some texts if its lower case does. -/
theorem startsWithAny_iff {heads : List String} :
    (ofLine line).startsWithAny heads = true ↔
      ∃ head ∈ heads, head.toList <+: (ofLine line).lowered := by
  rw [startsWithAny, List.any_eq_true]
  simp only [List.isPrefixOf_iff_prefix]

theorem any_words_iff {α : Type} {ofWord? : List Char → Option α}
    (hlower : ∀ w, ofWord? (lower w) = ofWord? w) :
    ((ofLine line).words.any fun w => (ofWord? w).isSome) = true ↔
      ∃ w ∈ Text.words line, (ofWord? w).isSome = true := by
  rw [List.any_eq_true, words_ofLine]
  simp only [List.mem_map]
  constructor
  · rintro ⟨-, ⟨w, hw, rfl⟩, h⟩
    exact ⟨w, hw, hlower w ▸ h⟩
  · rintro ⟨w, hw, h⟩
    exact ⟨lower w, ⟨w, hw, rfl⟩, (hlower w).symm ▸ h⟩

end Partial

theorem EventKind.ofWord?_lower (word : List Char) : ofWord? (lower word) = ofWord? word := by
  rw [ofWord?, lower_lower, ofWord?]

theorem BlockKind.ofWord?_lower (word : List Char) : ofWord? (lower word) = ofWord? word := by
  rw [ofWord?, lower_lower, ofWord?]

end Shorthand
