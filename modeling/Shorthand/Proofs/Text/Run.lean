import Mathlib.Data.List.TakeWhile
import Shorthand.Text.Blank
import Shorthand.Text.Digit

/-!
A text cut behind its first run of characters of one class. The classes of digits and of blanks have
no character in common, so a run of one ends where the other begins.
-/

namespace Shorthand.Text

section Runs

variable {α : Type} {p q : α → Bool} {run rest : List α}

/-- A run is taken up to the first character that does not belong to it. -/
theorem takeWhile_run (hrun : ∀ x ∈ run, p x = true) (hstop : ∀ x ∈ rest.head?, p x = false) :
    (run ++ rest).takeWhile p = run := by
  rw [List.takeWhile_append_of_pos hrun]
  have hnil : rest.takeWhile p = [] := by
    cases rest with
    | nil => rfl
    | cons x rest => rw [List.takeWhile_cons_of_neg (by simp [hstop x rfl])]
  rw [hnil, List.append_nil]

theorem dropWhile_run (hrun : ∀ x ∈ run, p x = true) (hstop : ∀ x ∈ rest.head?, p x = false) :
    (run ++ rest).dropWhile p = rest := by
  rw [List.dropWhile_append_of_pos hrun]
  cases rest with
  | nil => rfl
  | cons x rest => rw [List.dropWhile_cons_of_neg (by simp [hstop x rfl])]

theorem not_of_mem_head?_dropWhile {cs : List α} {x : α} (hx : x ∈ (cs.dropWhile p).head?) :
    p x = false := by
  have h := List.head?_dropWhile_not p cs
  rw [Option.mem_def.1 hx] at h
  simpa using h

theorem drop_length_takeWhile (l : List α) :
    l.drop (l.takeWhile p).length = l.dropWhile p := by
  induction l with
  | nil => rfl
  | cons x l ih => by_cases hx : p x = true <;> simp [hx, ih]

theorem takeWhile_of_imp (h : ∀ x, p x = true → q x = true) (l : List α) :
    l.takeWhile q = l.takeWhile p ++ (l.dropWhile p).takeWhile q := by
  induction l with
  | nil => rfl
  | cons x l ih =>
    by_cases hx : p x = true
    · simp [hx, h x hx, ih]
    · simp [hx]

theorem dropWhile_of_imp (h : ∀ x, p x = true → q x = true) (l : List α) :
    l.dropWhile q = (l.dropWhile p).dropWhile q := by
  induction l with
  | nil => rfl
  | cons x l ih =>
    by_cases hx : p x = true
    · simp [hx, h x hx, ih]
    · simp [hx]

end Runs

theorem isBlank_of_isDecimal {c : Char} (h : isDecimal c = true) : isBlank c = false := by
  -- Every run of ten digits lies in front of or behind every run of blanks.
  have hapart : ∀ first ∈ decimalZeros, ∀ run ∈ blankRuns, first + 9 < run.1 ∨ run.2 < first := by
    decide
  obtain ⟨first, hfirst, hlo, hhi⟩ :
      ∃ first ∈ decimalZeros, first ≤ c.toNat ∧ c.toNat < first + 10 := by
    simpa [isDecimal] using h
  rw [isBlank, List.any_eq_false]
  intro run hrun
  have := hapart first hfirst run hrun
  simp only [Bool.and_eq_true, decide_eq_true_eq]
  omega

theorem trimStart_blanks {blanks rest : List Char} (hb : ∀ c ∈ blanks, isBlank c = true)
    (hrest : ∀ c ∈ rest.head?, isBlank c = false) : trimStart (blanks ++ rest) = rest :=
  dropWhile_run hb hrest

theorem trimStart_blanks_append {blanks rest : List Char} (hb : ∀ c ∈ blanks, isBlank c = true) :
    trimStart (blanks ++ rest) = trimStart rest :=
  List.dropWhile_append_of_pos hb

theorem mem_head?_trimStart_append {cs rest : List Char} {c : Char}
    (hrest : ∀ x ∈ rest.head?, isBlank x = false) (hc : c ∈ (trimStart (cs ++ rest)).head?) :
    c ∈ cs ∨ c ∈ rest.head? := by
  induction cs with
  | nil =>
    rw [trimStart_blanks (by simp) hrest] at hc
    exact Or.inr hc
  | cons x cs ih =>
    rw [List.cons_append, trimStart, List.dropWhile_cons] at hc
    split at hc
    · rcases ih hc with h | h
      · exact Or.inl (List.mem_cons_of_mem x h)
      · exact Or.inr h
    · obtain rfl : x = c := Option.some.inj hc
      exact Or.inl List.mem_cons_self

theorem exists_blanks_append_trimStart (cs : List Char) :
    ∃ blanks, (∀ c ∈ blanks, isBlank c = true) ∧ cs = blanks ++ trimStart cs :=
  ⟨cs.takeWhile isBlank, fun _ hc => List.mem_takeWhile_imp hc,
    List.takeWhile_append_dropWhile.symm⟩

theorem isBlank_of_trimStart_eq_nil {cs : List Char} (h : trimStart cs = []) :
    ∀ c ∈ cs, isBlank c = true := by
  obtain ⟨blanks, hb, hcs⟩ := exists_blanks_append_trimStart cs
  rw [h, List.append_nil] at hcs
  rwa [hcs]

end Shorthand.Text
