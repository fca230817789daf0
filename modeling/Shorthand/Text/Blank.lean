/-!
Blank characters, trimming, and the pieces and words of a text: `pieces_append_sep` says that a
separator cuts a text in two, and `pieces_eq_singleton` that a text without one is a single piece.
-/

namespace Shorthand.Text

/-- First and last code points of the runs of characters that have the property `White_Space`. -/
def blankRuns : List (Nat × Nat) :=
  [(0x09, 0x0D), (0x20, 0x20), (0x85, 0x85), (0xA0, 0xA0), (0x1680, 0x1680), (0x2000, 0x200A),
   (0x2028, 0x2029), (0x202F, 0x202F), (0x205F, 0x205F), (0x3000, 0x3000)]

/-- A blank separates words and is cut off at both ends of a text. -/
def isBlank (c : Char) : Bool :=
  blankRuns.any fun run => run.1 ≤ c.toNat && c.toNat ≤ run.2

def trimStart (cs : List Char) : List Char := cs.dropWhile isBlank

def trimEnd (cs : List Char) : List Char := (cs.reverse.dropWhile isBlank).reverse

def trim (cs : List Char) : List Char := trimEnd (trimStart cs)

/-- The pieces between the members that `sep` accepts; two separators in a row enclose an empty
piece, and there is always at least one piece. -/
def pieces {α : Type} (sep : α → Bool) : List α → List (List α)
  | [] => [[]]
  | c :: cs =>
    if sep c then [] :: pieces sep cs
    else match pieces sep cs with
      | [] => [[c]]
      | piece :: rest => (c :: piece) :: rest

/-- The words of a text: its pieces between blanks, the empty ones left out. -/
def words (cs : List Char) : List (List Char) := (pieces isBlank cs).filter (!·.isEmpty)

def joinWith (sep : List Char) (pieces : List (List Char)) : List Char :=
  (pieces.intersperse sep).flatten

variable {α : Type}

theorem pieces_ne_nil (sep : α → Bool) (cs : List α) : pieces sep cs ≠ [] := by
  cases cs with
  | nil => simp [pieces]
  | cons c cs =>
    rw [pieces]
    split
    · simp
    · split <;> simp

theorem pieces_cons_sep {sep : α → Bool} {c : α} (h : sep c = true) (cs : List α) :
    pieces sep (c :: cs) = [] :: pieces sep cs := by
  simp [pieces, h]

/-- A separator parts the pieces in front of it from those behind it. -/
theorem pieces_append_sep {sep : α → Bool} {c : α} (hc : sep c = true) (x y : List α) :
    pieces sep (x ++ c :: y) = pieces sep x ++ pieces sep y := by
  induction x with
  | nil => simp [pieces, hc]
  | cons a x ih =>
    rw [List.cons_append, pieces, pieces, ih]
    by_cases ha : sep a = true
    · simp [ha]
    · cases hx : pieces sep x with
      | nil => exact absurd hx (pieces_ne_nil sep x)
      | cons p ps => simp [ha]

theorem pieces_eq_singleton {sep : α → Bool} :
    ∀ w : List α, (∀ x ∈ w, sep x = false) → pieces sep w = [w]
  | [], _ => rfl
  | x :: w, h => by
    have hx : sep x = false := h x (by simp)
    have ih := pieces_eq_singleton w fun y hy => h y (by simp [hy])
    simp [pieces, hx, ih]

/-- No piece holds a separator. -/
theorem not_sep_of_mem_pieces {sep : α → Bool} {cs w : List α} {x : α}
    (hw : w ∈ pieces sep cs) (hx : x ∈ w) : sep x = false := by
  induction cs generalizing w with
  | nil =>
    obtain rfl : w = [] := by simpa [pieces] using hw
    simp at hx
  | cons c cs ih =>
    rw [pieces] at hw
    split at hw
    · rcases List.mem_cons.1 hw with rfl | hw
      · simp at hx
      · exact ih hw hx
    · rename_i hc
      split at hw
      · rename_i h
        exact absurd h (pieces_ne_nil sep cs)
      · rename_i p ps h
        rcases List.mem_cons.1 hw with rfl | hw
        · rcases List.mem_cons.1 hx with rfl | hx
          · simpa using hc
          · exact ih (h ▸ List.mem_cons_self) hx
        · exact ih (h ▸ List.mem_cons_of_mem _ hw) hx

theorem ne_nil_of_mem_words {cs w : List Char} (h : w ∈ words cs) : w ≠ [] := by
  simp only [words, List.mem_filter, Bool.not_eq_true', List.isEmpty_eq_false_iff] at h
  exact h.2

/-- A blank ends a word and belongs to none. -/
theorem words_append_blank {c : Char} (hc : isBlank c = true) (x y : List Char) :
    words (x ++ c :: y) = words x ++ words y := by
  rw [words, pieces_append_sep hc, List.filter_append, words, words]

theorem not_blank_of_mem_words {cs w : List Char} {x : Char} (h : w ∈ words cs) (hx : x ∈ w) :
    isBlank x = false :=
  not_sep_of_mem_pieces (List.mem_filter.1 h).1 hx

end Shorthand.Text
