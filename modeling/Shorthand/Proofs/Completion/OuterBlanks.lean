import Shorthand.Proofs.Completion.HeldRange

/-!
Completions of a line with blanks around it. The blanks that a line ends with are kept for the rules
to see, but `Completion.offer_trim` says that none of them takes notice: a keyword is told from an
unfinished word by the blank behind it, and a rule that asks for one asks for a second word too.
-/

namespace Shorthand

open Text

/-! ## The line as the rules see it -/

/-- What a text begins with it begins with before the blanks at its end, or it reaches into them. -/
theorem Text.prefix_or_of_prefix_append {head cs blanks : List Char}
    (hb : ∀ c ∈ blanks, isBlank c = true) (h : head <+: cs ++ blanks) :
    head <+: cs ∨ ∃ more, (∀ c ∈ more, isBlank c = true) ∧ head = cs ++ more := by
  obtain ⟨back, hback⟩ := h
  rcases List.append_eq_append_iff.1 hback with ⟨rest, rfl, -⟩ | ⟨more, rfl, rfl⟩
  · exact Or.inl (List.prefix_append head rest)
  · exact Or.inr ⟨more, fun c hc => hb c (List.mem_append_left back hc), rfl⟩

namespace Partial

variable {line : List Char}

/-- Trimming takes the blanks at its end from the line in lower case, and nothing else. -/
theorem exists_lowered_trim (line : List Char) : ∃ blanks, (∀ c ∈ blanks, isBlank c = true) ∧
    (ofLine line).lowered = (ofLine (trim line)).lowered ++ blanks := by
  obtain ⟨blanks, hb, hline⟩ := exists_trimEnd_append_blanks (trimStart line)
  have hnone : ∀ c ∈ ([] : List Char), isBlank c = true := nofun
  have hstart : trimStart (trim line) = trim line :=
    trimStart_blanks hnone fun c => isBlank_of_mem_head?_trim
  refine ⟨blanks, hb, ?_⟩
  show lower (trimStart line) = lower (trimStart (trim line)) ++ blanks
  rw [hstart]
  conv => lhs; rw [hline, lower_append, lower_eq_self fun c hc => lowerChar_of_isBlank (hb c hc)]
  rfl

theorem base_trim (line : List Char) : (ofLine (trim line)).base = (ofLine line).base :=
  trim_trim line

theorem words_trim (line : List Char) : (ofLine (trim line)).words = (ofLine line).words := by
  rw [words_ofLine, Text.words_trim, words_ofLine]

/-- What is written behind a line does not depend on its outer blanks. -/
theorem followedBy_trim (line : List Char) (more : String) :
    (ofLine (trim line)).followedBy more = (ofLine line).followedBy more := by
  rw [followedBy, base_trim, followedBy]

theorem isOnly_trim (line : List Char) (text : String) :
    (ofLine (trim line)).isOnly text = (ofLine line).isOnly text := by
  obtain ⟨blanks, hb, hlowered⟩ := exists_lowered_trim line
  rw [isOnly, isOnly, hlowered, trimEnd_append_blanks hb]

/-- The trimmed line begins with all that the line begins with, unless this ends in a blank and is
as many words as the line. -/
theorem prefix_lowered_trim_iff {head : List Char}
    (hhead : (∀ c ∈ head.getLast?, isBlank c = false) ∨ Text.words head ≠ (ofLine line).words) :
    head <+: (ofLine (trim line)).lowered ↔ head <+: (ofLine line).lowered := by
  obtain ⟨blanks, hb, hlowered⟩ := exists_lowered_trim line
  constructor
  · rw [hlowered]
    exact fun h => h.trans (List.prefix_append _ blanks)
  · intro h
    rw [hlowered] at h
    rcases prefix_or_of_prefix_append hb h with h | ⟨more, hmore, rfl⟩
    · exact h
    rcases hhead with hlast | hwords
    · obtain rfl : more = [] := by
        rcases List.eq_nil_or_concat more with rfl | ⟨front, c, rfl⟩
        · rfl
        have hc := hlast c (by simp)
        rw [hmore c (by simp)] at hc
        cases hc
      exact ⟨[], by simp⟩
    · rw [words_append_blanks hmore, ← words_trim line] at hwords
      exact absurd rfl hwords

theorem startsWithAny_trim (line : List Char) {heads : List String}
    (hheads : heads.all (fun head => head.toList.getLast?.all (!isBlank ·)) = true) :
    (ofLine (trim line)).startsWithAny heads = (ofLine line).startsWithAny heads := by
  rw [Bool.eq_iff_iff, startsWithAny_iff, startsWithAny_iff]
  refine exists_congr fun head => and_congr_right fun hmem => ?_
  have hlast := Option.all_eq_true _ _ |>.1 (List.all_eq_true.1 hheads head hmem)
  exact prefix_lowered_trim_iff (Or.inl fun c hc => by simpa using hlast c hc)

/-- A keyword is told from an unfinished word by the blank behind it, and on a line of more words
this is no blank at the end of the line. -/
theorem startsWithAny_trim_of_words {heads : List String}
    (hheads : heads.all (fun head => (Text.words head.toList).length = 1) = true)
    (hline : 2 ≤ (ofLine line).words.length) :
    (ofLine (trim line)).startsWithAny heads = (ofLine line).startsWithAny heads := by
  rw [Bool.eq_iff_iff, startsWithAny_iff, startsWithAny_iff]
  refine exists_congr fun head => and_congr_right fun hmem => ?_
  have hone : (Text.words head.toList).length = 1 := by
    simpa using List.all_eq_true.1 hheads head hmem
  refine prefix_lowered_trim_iff (Or.inr fun hwords => ?_)
  rw [← hwords] at hline
  omega

theorem holdsTimeRange_trim (line : List Char) :
    holdsTimeRange (ofLine (trim line)).lowered = holdsTimeRange (ofLine line).lowered := by
  rw [Bool.eq_iff_iff, holdsTimeRange_iff, holdsTimeRange_iff,
    holdsSeam_lowered_iff not_blank_of_mem_writtenHalves, Text.words_trim,
    holdsSeam_lowered_iff not_blank_of_mem_writtenHalves]

theorem holdsNumberRange_trim (line : List Char) :
    holdsNumberRange (ofLine (trim line)).lowered = holdsNumberRange (ofLine line).lowered := by
  have hnone : ∀ half ∈ ([[]] : List (List Char)), ∀ c ∈ half, isBlank c = false := by simp
  rw [Bool.eq_iff_iff, holdsNumberRange_iff, holdsNumberRange_iff, holdsSeam_lowered_iff hnone,
    Text.words_trim, holdsSeam_lowered_iff hnone]

end Partial

/-! ## Completions -/

namespace Completion

variable (line : List Char)

theorem blockTimesAndTasks_trim :
    blockTimesAndTasks (Partial.ofLine (trim line)) = blockTimesAndTasks (Partial.ofLine line) := by
  unfold blockTimesAndTasks
  by_cases hline : 2 ≤ (Partial.ofLine line).words.length
  · simp (disch := first | decide | exact hline) only [Partial.startsWithAny_trim_of_words,
      Partial.words_trim, Partial.followedBy_trim]
  · -- With fewer words nothing is offered, whatever the line begins with.
    rw [Partial.words_trim]
    rcases Nat.le_one_iff_eq_zero_or_eq_one.1 (Nat.le_of_lt_succ (Nat.lt_of_not_le hline)) with
      hfew | hfew <;> simp only [hfew, ite_self]

theorem eventDetails_trim :
    eventDetails (Partial.ofLine (trim line)) = eventDetails (Partial.ofLine line) := by
  simp (disch := decide) only [eventDetails, eventBase, Partial.startsWithAny_trim,
    Partial.words_trim, Partial.base_trim, Partial.followedBy_trim]

/-- No rule looks at the outer blanks of a line. -/
theorem rule_trim {rule : Partial → List Completion} (h : rule ∈ rules) :
    rule (Partial.ofLine (trim line)) = rule (Partial.ofLine line) := by
  simp only [rules, List.mem_cons, List.not_mem_nil, or_false] at h
  rcases h with rfl | rfl | rfl | rfl | rfl | rfl | rfl | rfl
  · simp only [blockKinds, Partial.isOnly_trim, Partial.followedBy_trim]
  · exact blockTimesAndTasks_trim line
  · exact eventDetails_trim line
  · simp only [rangeFromHour, Partial.holdsTimeRange_trim, Partial.words_trim, Partial.base_trim]
  · simp only [taskMinutes, Partial.holdsNumberRange_trim, Partial.words_trim,
      Partial.followedBy_trim]
  · simp (disch := decide) only [routines, Partial.startsWithAny_trim]
  · simp (disch := decide) only [fromNow, Partial.startsWithAny_trim]
  · simp (disch := decide) only [assistant, Partial.isOnly_trim, Partial.startsWithAny_trim]

/-- Blanks around a line change nothing about what is offered for it. -/
theorem offer_trim (limit : Nat) (line : String) :
    offer limit (String.ofList (trim line.toList)) = offer limit line := by
  have hrules : rules.flatMap (fun rule => rule (Partial.ofLine (trim line.toList))) =
      rules.flatMap fun rule => rule (Partial.ofLine line.toList) :=
    List.flatMap_congr fun _ => rule_trim line.toList
  simp only [offer, String.toList_ofList, trim_trim, hrules]

end Completion

end Shorthand
