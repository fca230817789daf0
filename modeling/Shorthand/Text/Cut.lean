/-!
A text cut in two at a character. `cutAtFirst?_eq_some_iff` and `cutAtLast?_eq_some_iff` say what it
means to cut it at the first and at the last one.
-/

namespace Shorthand.Text

def cutAtFirst? (sep : Char) (cs : List Char) : Option (List Char × List Char) :=
  match cs.dropWhile (· ≠ sep) with
  | [] => none
  | _ :: rest => some (cs.takeWhile (· ≠ sep), rest)

def cutAtLast? (sep : Char) : List Char → Option (List Char × List Char)
  | [] => none
  | c :: cs =>
    match cutAtLast? sep cs with
    | some (head, tail) => some (c :: head, tail)
    | none => if c = sep then some ([], cs) else none

/-- The text in front of the first separator holds none. -/
theorem cutAtFirst?_eq_some_iff {sep : Char} {cs head tail : List Char} :
    cutAtFirst? sep cs = some (head, tail) ↔ cs = head ++ sep :: tail ∧ sep ∉ head := by
  unfold cutAtFirst?
  constructor
  · intro h
    split at h
    · cases h
    · rename_i c rest hrest
      cases h
      -- What stops the search is the separator, and nothing in front of it is one.
      have hc : c = sep := by
        have hstop := List.head?_dropWhile_not (· ≠ sep) cs
        rw [hrest] at hstop
        simpa using hstop
      subst hc
      refine ⟨?_, fun hmem => ?_⟩
      · rw [← hrest, List.takeWhile_append_dropWhile]
      · have hall := List.all_eq_true.1 (List.all_takeWhile (p := (· ≠ c)) (l := cs)) c hmem
        simp at hall
  · rintro ⟨rfl, hhead⟩
    have hne : ∀ c ∈ head, decide (c ≠ sep) = true := by
      intro c hc
      rw [decide_eq_true_iff]
      rintro rfl
      exact hhead hc
    rw [List.dropWhile_append_of_pos hne, List.dropWhile_cons_of_neg (by simp),
      List.takeWhile_append_of_pos hne, List.takeWhile_cons_of_neg (by simp), List.append_nil]

theorem cutAtLast?_eq_none_iff {sep : Char} {cs : List Char} :
    cutAtLast? sep cs = none ↔ sep ∉ cs := by
  induction cs with
  | nil => simp [cutAtLast?]
  | cons c cs ih =>
    rw [cutAtLast?]
    split
    · rename_i h
      have hmem : sep ∈ cs := by
        have := mt ih.2 (by simp [h])
        simpa using this
      simp [hmem]
    · rename_i h
      have hmem : sep ∉ cs := ih.1 h
      by_cases hc : c = sep
      · simp [hc]
      · simp [hc, hmem, Ne.symm hc]

/-- The text behind the last separator holds none. -/
theorem cutAtLast?_eq_some_iff {sep : Char} {cs head tail : List Char} :
    cutAtLast? sep cs = some (head, tail) ↔ cs = head ++ sep :: tail ∧ sep ∉ tail := by
  induction cs generalizing head tail with
  | nil => simp [cutAtLast?]
  | cons c cs ih =>
    rw [cutAtLast?]
    split
    · -- A separator stands further behind, so the first character belongs to the front whatever it
      -- is.
      rename_i h t heq
      obtain ⟨hcs, ht⟩ := ih.1 heq
      constructor
      · rintro ⟨⟩
        exact ⟨by rw [hcs]; rfl, ht⟩
      · rintro ⟨hcons, htail⟩
        cases head with
        | nil =>
          obtain ⟨rfl, rfl⟩ : c = sep ∧ cs = tail := by simpa using hcons
          exact absurd (hcs ▸ by simp) htail
        | cons d head =>
          obtain ⟨rfl, hrest⟩ : c = d ∧ cs = head ++ sep :: tail := by simpa using hcons
          have := ih.2 ⟨hrest, htail⟩
          rw [heq] at this
          cases this
          rfl
    · rename_i hnone
      -- None does, so the text is cut here or nowhere.
      have hmem : sep ∉ cs := cutAtLast?_eq_none_iff.1 hnone
      by_cases hc : c = sep
      · rw [if_pos hc]
        constructor
        · rintro ⟨⟩
          exact ⟨by simp [hc], hmem⟩
        · rintro ⟨hcons, htail⟩
          cases head with
          | nil => rw [(List.cons.inj hcons).2]
          | cons d head =>
            have hcs : cs = head ++ sep :: tail := by simpa using (List.cons.inj hcons).2
            exact absurd (hcs ▸ by simp) hmem
      · rw [if_neg hc]
        constructor
        · intro h
          cases h
        · rintro ⟨hcons, htail⟩
          cases head with
          | nil => exact absurd (List.cons.inj hcons).1 hc
          | cons d head =>
            have hcs : cs = head ++ sep :: tail := by simpa using (List.cons.inj hcons).2
            exact absurd (hcs ▸ by simp) hmem

end Shorthand.Text
