import Shorthand.Proofs.Text.Number
import Shorthand.Yaml.Cursor

/-!
Text between two tokens: blanks, comments, line breaks and indentation. `Idle.lands` says where
skipping over such a text leads.
-/

namespace Shorthand.Yaml

namespace Cursor

variable {c : Cursor} {x : Char} {cs rest : List Char}

theorem next_eq (hrest : c.rest = x :: rest) (hx : isBreak x = false) :
    c.next = ⟨rest, c.line, c.column + 1, c.index + x.utf8Size⟩ := by
  simp [next, hrest, hx]

/-- A line break leads to the first column of the next line. -/
theorem next_of_isBreak (hrest : c.rest = x :: rest) (hx : isBreak x = true) :
    c.next = ⟨rest, c.line + 1, 0, c.index + x.utf8Size⟩ := by
  simp [next, hrest, hx]

theorem forward_add (m n : Nat) (c : Cursor) : c.forward (m + n) = (c.forward m).forward n := by
  induction m generalizing c with
  | zero => rw [Nat.zero_add, forward]
  | succ m ih => rw [Nat.succ_add, forward, ih, forward]

/-- The text that is left does not get longer on the way. -/
theorem length_next_le (c : Cursor) : c.next.rest.length ≤ c.rest.length := by
  rw [rest_next, List.length_tail]
  exact Nat.sub_le _ _

/-- Nothing is put back while blanks and comments are passed over. -/
theorem length_skipFrom_le (flow : Bool) (cs : List Char) (comment keyAllowed : Bool) (c : Cursor) :
    (skipFrom flow cs comment keyAllowed c).1.rest.length ≤ c.rest.length := by
  induction cs generalizing comment keyAllowed c with
  | nil => exact Nat.le_refl _
  | cons x cs ih =>
    have hstep := fun comment keyAllowed =>
      Nat.le_trans (ih comment keyAllowed c.next) c.length_next_le
    rw [skipFrom]
    split
    · exact hstep _ _
    · split
      · exact hstep _ _
      · split
        · exact hstep _ _
        · exact Nat.le_refl _

/-- The lexer never goes back to a line before. -/
theorem line_le_next (c : Cursor) : c.line ≤ c.next.line := by
  unfold next
  split
  · exact Nat.le_refl _
  · split
    · exact Nat.le_succ _
    · exact Nat.le_refl _

/-- Going on over a text without a line break. -/
theorem forward_eq (hrest : c.rest = cs ++ rest) (hcs : ∀ x ∈ cs, isBreak x = false) :
    c.forward cs.length = ⟨rest, c.line, c.column + cs.length,
      c.index + (String.ofList cs).utf8ByteSize⟩ := by
  induction cs generalizing c with
  | nil =>
    rw [List.nil_append] at hrest
    subst hrest
    rfl
  | cons x cs ih =>
    obtain ⟨hx, htail⟩ := List.forall_mem_cons.1 hcs
    have hnext := next_eq hrest hx
    have hbehind : c.next.rest = cs ++ rest := by
      rw [hnext]
      rfl
    rw [List.length_cons, forward, ih hbehind htail, hnext, Text.utf8ByteSize_ofList_cons]
    simp only [Cursor.mk.injEq, true_and]
    omega

/-- A mark of the document stands at the start of a line. -/
theorem not_atDocumentMark (h : 0 < c.column) : c.atDocumentMark = false := by
  have hcolumn : (c.column == 0) = false := by simp; omega
  simp [atDocumentMark, atStartMark, atEndMark, atMark, hcolumn]

end Cursor

/-! ## Texts without a token -/

/-- What was passed on the line where a text between two tokens goes on. -/
inductive Spot where
  /-- The end of a token. -/
  | token
  /-- A blank behind a token. -/
  | blank
  | comment
  /-- Nothing but this many spaces. -/
  | indent (n : Nat)
deriving DecidableEq

/-- The text holds no token, up to column `goal` of a line on which nothing else stands in front, or
up to the end of the whole text. -/
inductive Idle : Option Nat → Spot → List Char → Prop
  | stop (spot : Spot) : Idle none spot []
  | arrive (n : Nat) : Idle (some n) (.indent n) []
  | blank {goal : Option Nat} {spot : Spot} {x : Char} {rest : List Char}
      (hspot : spot = .token ∨ spot = .blank) (hx : isSpace x = true)
      (h : Idle goal .blank rest) : Idle goal spot (x :: rest)
  | indent {goal : Option Nat} {n : Nat} {rest : List Char} (h : Idle goal (.indent (n + 1)) rest) :
      Idle goal (.indent n) (' ' :: rest)
  | startComment {goal : Option Nat} {spot : Spot} {rest : List Char} (hspot : spot ≠ .token)
      (h : Idle goal .comment rest) : Idle goal spot ('#' :: rest)
  | comment {goal : Option Nat} {x : Char} {rest : List Char} (hx : isBreak x = false)
      (h : Idle goal .comment rest) : Idle goal .comment (x :: rest)
  | lineBreak {goal : Option Nat} {spot : Spot} {x : Char} {rest : List Char}
      (hx : isBreak x = true) (h : Idle goal (.indent 0) rest) : Idle goal spot (x :: rest)

def startsToken (x : Char) : Bool := !(isSpace x || isBreak x || x = '#' || x = '\uFEFF')

inductive Next : Option Nat → List Char → Prop
  | stop : Next none []
  | token {n : Nat} {x : Char} {rest : List Char} (hx : startsToken x = true) :
      Next (some n) (x :: rest)

/-- The place found behind a text without a token: a key may start there, on a later line if the
text did not start one. -/
structure Lands (goal : Option Nat) (more : List Char) (start : Cursor) (spot : Spot)
    (found : Cursor × Bool) : Prop where
  rest : found.1.rest = more
  line_le : start.line ≤ found.1.line
  column : ∀ n ∈ goal, found.1.column = n
  keyAllowed : ∀ n ∈ goal, found.2 = true
  line_lt : ∀ n ∈ goal, (∀ k, spot ≠ .indent k) → start.line < found.1.line

def Spot.Fits (spot : Spot) (keyAllowed : Bool) (c : Cursor) : Prop :=
  match spot with
  | .token => keyAllowed = false
  | .blank => keyAllowed = false
  | .comment => True
  | .indent n => keyAllowed = true ∧ c.column = n

theorem isSpace_eq_or {x : Char} (hx : isSpace x = true) : x = ' ' ∨ x = '\t' := by
  simpa [isSpace] using hx

theorem isBreak_of_isSpace {x : Char} (hx : isSpace x = true) : isBreak x = false := by
  rcases isSpace_eq_or hx with rfl | rfl <;> decide

theorem startsToken_iff {x : Char} : startsToken x = true ↔
    isSpace x = false ∧ isBreak x = false ∧ x ≠ '#' ∧ x ≠ '\uFEFF' := by
  simp [startsToken, and_assoc]

/-- A place found from further on is found from here: either a line break is passed now, or the
spot reached is no start of a line if this one is none. -/
theorem Lands.of_later {goal : Option Nat} {more : List Char} {c later : Cursor} {spot spot' : Spot}
    {found : Cursor × Bool} (h : Lands goal more later spot' found) (hle : c.line ≤ later.line)
    (hspot : c.line < later.line ∨ ((∀ k, spot ≠ .indent k) → ∀ k, spot' ≠ .indent k)) :
    Lands goal more c spot found := by
  refine ⟨h.rest, Nat.le_trans hle h.line_le, h.column, h.keyAllowed, fun n hn hindent => ?_⟩
  rcases hspot with hlt | hspot
  · exact Nat.lt_of_lt_of_le hlt h.line_le
  · exact Nat.lt_of_le_of_lt hle (h.line_lt n hn (hspot hindent))

/-- Skipping over a text without a token leads behind it. -/
theorem Idle.lands {goal : Option Nat} {spot : Spot} {cs more : List Char}
    (h : Idle goal spot cs) (hmore : Next goal more) {c : Cursor} (hrest : c.rest = cs ++ more)
    {keyAllowed : Bool} (hspot : spot.Fits keyAllowed c) :
    Lands goal more c spot
      (Cursor.skipFrom false (cs ++ more) (spot == .comment) keyAllowed c) := by
  -- By induction on the text: each character leaves a spot that the next one fits.
  induction h generalizing c keyAllowed with
  | stop spot =>
    cases hmore
    exact ⟨hrest, Nat.le_refl _, nofun, nofun, nofun⟩
  | arrive n =>
    cases hmore with
    | @token _ x rest hx =>
      obtain ⟨hspace, hbreak, hmark, hbom⟩ := startsToken_iff.1 hx
      have hblank : x ≠ ' ' ∧ x ≠ '\t' := by simpa [isSpace] using hspace
      have hstop : Cursor.skipFrom false (x :: rest) false keyAllowed c = (c, keyAllowed) := by
        simp [Cursor.skipFrom, hbreak, hmark, hbom, hblank]
      obtain ⟨rfl, hcolumn⟩ := hspot
      show Lands _ _ _ _ (Cursor.skipFrom false (x :: rest) false true c)
      rw [hstop]
      refine ⟨hrest, Nat.le_refl _, ?_, fun _ _ => rfl, fun _ _ h => absurd rfl (h n)⟩
      rintro _ ⟨⟩
      exact hcolumn
  | @blank goal spot x rest hspot' hx h ih =>
    have hnext := Cursor.next_eq hrest (isBreak_of_isSpace hx)
    have hfalse : keyAllowed = false := by
      rcases hspot' with rfl | rfl <;> exact hspot
    have hno : (spot == .comment) = false := by
      rcases hspot' with rfl | rfl <;> rfl
    have hstep : Cursor.skipFrom false (x :: (rest ++ more)) false keyAllowed c =
        Cursor.skipFrom false (rest ++ more) false keyAllowed c.next := by
      rcases isSpace_eq_or hx with rfl | rfl <;> simp [Cursor.skipFrom, hfalse, isBreak]
    rw [hno, List.cons_append, hstep]
    refine (ih hmore (by rw [hnext]; rfl) hfalse).of_later c.line_le_next (Or.inr ?_)
    rintro - k ⟨⟩
  | @indent goal n rest h ih =>
    have hnext := Cursor.next_eq hrest (by decide)
    have hstep : Cursor.skipFrom false (' ' :: (rest ++ more)) false keyAllowed c =
        Cursor.skipFrom false (rest ++ more) false keyAllowed c.next := by
      simp [Cursor.skipFrom, isBreak]
    show Lands _ _ _ _ (Cursor.skipFrom false (' ' :: (rest ++ more)) false keyAllowed c)
    rw [hstep]
    have hfits : (Spot.indent (n + 1)).Fits keyAllowed c.next := by
      obtain ⟨rfl, rfl⟩ := hspot
      rw [hnext]
      exact ⟨rfl, rfl⟩
    exact (ih hmore (by rw [hnext]; rfl) hfits).of_later c.line_le_next
      (Or.inr fun h => absurd rfl (h n))
  | @startComment goal spot rest hspot' h ih =>
    have hnext := Cursor.next_eq hrest (by decide)
    have hstep : Cursor.skipFrom false ('#' :: (rest ++ more)) (spot == .comment) keyAllowed c =
        Cursor.skipFrom false (rest ++ more) true keyAllowed c.next := by
      simp [Cursor.skipFrom, isBreak]
    rw [List.cons_append, hstep]
    refine (ih hmore (by rw [hnext]; rfl) trivial).of_later c.line_le_next (Or.inr ?_)
    rintro - k ⟨⟩
  | @comment goal x rest hx h ih =>
    have hnext := Cursor.next_eq hrest hx
    have hstep : Cursor.skipFrom false (x :: (rest ++ more)) true keyAllowed c =
        Cursor.skipFrom false (rest ++ more) true keyAllowed c.next := by
      simp [Cursor.skipFrom, hx]
    show Lands _ _ _ _ (Cursor.skipFrom false (x :: (rest ++ more)) true keyAllowed c)
    rw [hstep]
    exact (ih hmore (by rw [hnext]; rfl) trivial).of_later c.line_le_next (Or.inr id)
  | @lineBreak goal spot x rest hx h ih =>
    have hnext := Cursor.next_of_isBreak hrest hx
    have hstep : Cursor.skipFrom false (x :: (rest ++ more)) (spot == .comment) keyAllowed c =
        Cursor.skipFrom false (rest ++ more) false true c.next := by
      simp [Cursor.skipFrom, hx]
    rw [List.cons_append, hstep]
    exact (ih hmore (by rw [hnext]; rfl) ⟨rfl, by rw [hnext]⟩).of_later
      c.line_le_next (Or.inl (by rw [hnext]; exact Nat.lt_succ_self _))

/-- In a gap neither a mark of the document goes on nor a quotation mark follows. -/
theorem ordinary_of_atGap {cs : List Char} (h : atGap cs = true) :
    ∀ y ∈ cs.head?, (y ≠ '-' ∧ y ≠ '.') ∧ y ≠ '\'' := by
  cases cs with
  | nil => nofun
  | cons x cs =>
    rintro y ⟨⟩
    refine ⟨⟨?_, ?_⟩, ?_⟩ <;>
    · rintro rfl
      cases h

/-- A gap follows a token. -/
theorem Idle.atGap {goal : Option Nat} {cs more : List Char} (h : Idle goal .token cs)
    (hmore : Next goal more) : Yaml.atGap (cs ++ more) = true := by
  cases h with
  | stop =>
    cases hmore
    rfl
  | blank hspot hx h => simp [Yaml.atGap, hx]
  | startComment hspot h => exact absurd rfl hspot
  | lineBreak hx h => simp [Yaml.atGap, hx]

end Shorthand.Yaml
