import Shorthand.Proofs.Text.LetterCase
import Shorthand.Proofs.Text.Spacing

/-!
What the lower case of a text tells about the text: its words are the words in lower case, and where
it is cut at a hyphen the text can be cut too.
-/

namespace Shorthand.Text

theorem lowerChar_ne_nil (c : Char) : lowerChar c ≠ [] := by
  unfold lowerChar
  split
  · exact List.cons_ne_nil _ _
  · split
    · exact List.cons_ne_nil _ _
    · split <;> exact List.cons_ne_nil _ _

theorem lower_eq_nil_iff {cs : List Char} : lower cs = [] ↔ cs = [] := by
  cases cs with
  | nil => exact ⟨fun _ => rfl, fun _ => rfl⟩
  | cons c cs =>
    constructor
    · intro h
      exact absurd (List.append_eq_nil_iff.1 h).1 (lowerChar_ne_nil c)
    · rintro ⟨⟩

theorem pieces_lower (cs : List Char) :
    pieces isBlank (lower cs) = (pieces isBlank cs).map lower :=
  pieces_flatMap (fun c hc => ⟨c, lowerChar_of_isBlank hc, hc⟩)
    (fun _ hc _ => isBlank_of_mem_lowerChar hc) cs

/-- The words of a text in lower case are its words in lower case. -/
theorem words_lower (cs : List Char) : words (lower cs) = (words cs).map lower := by
  have hempty : ∀ w : List Char, (lower w).isEmpty = w.isEmpty := fun w => by
    rw [Bool.eq_iff_iff, List.isEmpty_iff, List.isEmpty_iff, lower_eq_nil_iff]
  rw [words, pieces_lower, words, List.filter_map]
  refine congrArg (List.map lower) (List.filter_congr fun w _ => ?_)
  rw [Function.comp_apply, hempty]

theorem words_trimStart (cs : List Char) : words (trimStart cs) = words cs := by
  obtain ⟨blanks, hblanks, hcs⟩ := exists_blanks_append_trimStart cs
  conv => rhs; rw [hcs, words_blanks_append hblanks]

/-- Only a hyphen has a hyphen in lower case. -/
theorem eq_of_hyphen_mem_lowerChar {c : Char} (h : '-' ∈ lowerChar c) : c = '-' := by
  rcases lowerChar_cases h with ⟨hself, -⟩ | ⟨-, hlower⟩ | hother | hother | hother
  · exact hself.symm
  · exact (isMark_hyphen c).1 hlower.symm
  all_goals exact absurd hother (by decide)

/-- A text is cut at the hyphen at which its lower case is cut. -/
theorem exists_of_lower_eq_append {cs a b : List Char} (h : lower cs = a ++ '-' :: b) :
    ∃ x y, cs = x ++ '-' :: y ∧ lower x = a ∧ lower y = b := by
  induction cs generalizing a with
  | nil => exact absurd h.symm (by simp [lower])
  | cons c cs ih =>
    by_cases hc : c = '-'
    · subst hc
      cases a with
      | nil => exact ⟨[], cs, rfl, rfl, (List.cons.inj h).2⟩
      | cons d a =>
        obtain ⟨rfl, hrest⟩ := List.cons.inj h
        obtain ⟨x, y, rfl, rfl, rfl⟩ := ih hrest
        exact ⟨'-' :: x, y, rfl, rfl, rfl⟩
    · -- The lower case of the first character holds no hyphen, so the cut lies behind it.
      have hfree : '-' ∉ lowerChar c := fun hmem => hc (eq_of_hyphen_mem_lowerChar hmem)
      have hsplit : lowerChar c ++ lower cs = a ++ '-' :: b := h
      rcases List.append_eq_append_iff.1 hsplit with ⟨front, ha, hcs⟩ | ⟨back, hc', hb⟩
      · obtain ⟨x, y, rfl, hx, rfl⟩ := ih hcs
        exact ⟨c :: x, y, rfl, by rw [ha, ← hx]; rfl, rfl⟩
      · cases back with
        | nil =>
          obtain ⟨x, y, rfl, hx, rfl⟩ := ih (a := []) hb.symm
          rw [lower_eq_nil_iff] at hx
          subst hx
          exact ⟨[c], y, rfl, by rw [← List.append_nil a, ← hc']; exact List.append_nil _, rfl⟩
        | cons d back =>
          obtain ⟨rfl, -⟩ := List.cons.inj hb
          exact absurd (hc' ▸ List.mem_append_right a List.mem_cons_self) hfree

/-- A text whose lower case is digits is those digits. -/
theorem eq_of_lower_isDecimal {cs : List Char} (h : ∀ d ∈ lower cs, isDecimal d = true) :
    lower cs = cs := by
  refine lower_eq_self fun c hc => ?_
  obtain ⟨d, hd⟩ := List.exists_mem_of_ne_nil _ (lowerChar_ne_nil c)
  have hdc : d = c := eq_of_isDecimal_of_mem_lowerChar hd (h d (List.mem_flatMap.2 ⟨c, hc, hd⟩))
  exact hdc ▸ lowerChar_of_mem_lowerChar hd

/-- The first word of a text begins with the text that it begins with, up to its first blank. -/
theorem exists_words_of_front {front cs : List Char} (hne : front ≠ [])
    (hfront : ∀ c ∈ front, isBlank c = false) (h : front <+: cs) :
    ∃ first rest, words cs = first :: rest ∧ front <+: first := by
  obtain ⟨back, rfl⟩ := h
  have hhead : ∀ c ∈ (front ++ back).head?, isBlank c = false := by
    obtain ⟨d, ds, rfl⟩ := List.exists_cons_of_ne_nil hne
    intro c hc
    obtain rfl : d = c := by simpa using hc
    exact hfront d List.mem_cons_self
  refine ⟨_, _, words_eq_cons (by simp [hne]) hhead, ?_⟩
  rw [List.takeWhile_append_of_pos fun c hc => by rw [hfront c hc]; rfl]
  exact List.prefix_append _ _

/-- A text ends in its last word, behind a blank or nothing. -/
theorem exists_of_getLast?_words {cs last : List Char} (h : (words cs).getLast? = some last) :
    ∃ before, trim cs = before ++ last ∧ (∀ c ∈ before.getLast?, isBlank c = true) ∧
      words before = (words cs).dropLast := by
  have hne : trim cs ≠ [] := by
    intro hnil
    rw [← words_trim, hnil] at h
    cases h
  obtain ⟨before, w, hcut, hbefore, hw, hblank⟩ :=
    exists_append_of_last_word hne fun c => isBlank_of_mem_getLast?_trim
  have hwords : words cs = words before ++ [w] := by
    rw [← words_trim, hcut, words_append_of_blank_last hbefore, words_eq_singleton hw hblank]
  rw [hwords, List.getLast?_concat] at h
  cases h
  exact ⟨before, hcut, hbefore, by rw [hwords, List.dropLast_concat]⟩

end Shorthand.Text
