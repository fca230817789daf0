import Shorthand.Proofs.Text.Run
import Shorthand.Proofs.Yaml.Scalar
import Shorthand.Yaml.Token.Read

/-!
Steps of the lexer outside of flow collections. Reading is followed from one token to the next:
`At` is a lexer with nothing but a text without a token in front of the next one, and `Reaches`
leads from there to the lexer behind it.
-/

namespace Shorthand.Yaml.Lexer

variable {s t : Lexer} {bound column : Nat}

/-! ## Blocks that end and start -/

@[simp]
theorem place_closeBlocks : (s.closeBlocks bound).place = s.place := by
  unfold closeBlocks
  split <;> rfl

@[simp]
theorem possibleKey_closeBlocks : (s.closeBlocks bound).possibleKey = s.possibleKey := by
  unfold closeBlocks
  split <;> rfl

@[simp]
theorem outerKeys_closeBlocks : (s.closeBlocks bound).outerKeys = s.outerKeys := by
  unfold closeBlocks
  split <;> rfl

/-- Ending block collections takes them from the stack and adds a token for each. -/
theorem closeBlocks_eq (hflow : s.outerKeys = []) : s.closeBlocks bound =
    { s with
      tokens := List.replicate (s.blocks.takeWhile (bound ≤ ·)).length .blockEnd ++ s.tokens
      blocks := s.blocks.dropWhile (bound ≤ ·) } := by
  have hin : s.inFlow = false := by simp [inFlow, hflow]
  simp [closeBlocks, hin, Text.drop_length_takeWhile]

/-- Nothing ends where all blocks start further left. -/
theorem closeBlocks_of_lt (hflow : s.outerKeys = []) (h : ∀ j ∈ s.blocks.head?, j < bound) :
    s.closeBlocks bound = s := by
  rw [closeBlocks_eq hflow]
  cases hblocks : s.blocks with
  | nil =>
    cases s
    cases hblocks
    rfl
  | cons j blocks =>
    have hj : ¬ bound ≤ j := Nat.not_le.2 (h j (by rw [hblocks]; rfl))
    cases s
    cases hblocks
    simp [hj]

/-- The innermost collection that is left stands to the left of the bound. -/
theorem lt_of_mem_head?_closeBlocks (hflow : s.outerKeys = []) :
    ∀ j ∈ (s.closeBlocks bound).blocks.head?, j < bound := by
  intro j hj
  rw [closeBlocks_eq hflow] at hj
  simpa using Text.not_of_mem_head?_dropWhile hj

/-- Blocks that start further right end first. -/
theorem closeBlocks_closeBlocks (hflow : s.outerKeys = []) {bound' : Nat} (h : bound' ≤ bound) :
    (s.closeBlocks bound).closeBlocks bound' = s.closeBlocks bound' := by
  have himp : ∀ j : Nat, decide (bound ≤ j) = true → decide (bound' ≤ j) = true := by
    intro j hj
    simp only [decide_eq_true_eq] at hj ⊢
    omega
  rw [closeBlocks_eq (s := s.closeBlocks bound) (by simpa using hflow), closeBlocks_eq hflow,
    closeBlocks_eq hflow]
  simp only [Lexer.mk.injEq, true_and, and_true]
  rw [← Text.dropWhile_of_imp himp, Text.takeWhile_of_imp himp s.blocks, List.length_append,
    Nat.add_comm, ← List.replicate_append_replicate, List.append_assoc]
  exact ⟨rfl, rfl⟩

/-! ## Keys that may start -/

theorem noteKey_of_not_allowed (h : s.keyAllowed = false) : s.noteKey = .ok s := by
  unfold noteKey
  rw [h]
  rfl

/-- A key is noted where one may start, unless it takes the place of one that had to be a key. -/
theorem noteKey_of_allowed (h : s.keyAllowed = true) (hflow : s.outerKeys = [])
    (hkey : s.possibleKey = none) :
    s.noteKey = .ok { s with
      possibleKey := some ⟨s.tokens.length, s.place, s.blocks.head? == some s.place.column⟩ } := by
  unfold noteKey dropKey
  simp [h, hkey, inFlow, hflow]

/-! ## The token that is read -/

section ReadAt

variable {x : Char} {cs more : List Char}

/-- A quotation mark starts a quoted scalar. -/
theorem readAt_quoted {q : Quote} (hrest : s.place.rest = q.char :: more) :
    s.readAt q.char more = s.readQuoted q := by
  have hmark : s.place.atStartMark = false ∧ s.place.atEndMark = false := by
    cases q <;> simp [Cursor.atStartMark, Cursor.atEndMark, Cursor.atMark, hrest, Quote.char]
  cases q <;> simp [readAt, hmark, Quote.char]

/-- A text that starts no mark of the document starts none with something behind it that goes on
with neither of its characters. -/
theorem not_mark {m : Char} (hm : m = '-' ∨ m = '.') (hcs : startsMark cs = false)
    (hmore : ∀ y ∈ more.head?, y ≠ '-' ∧ y ≠ '.') :
    ([m, m, m].isPrefixOf (cs ++ more) && atGap ((cs ++ more).drop 3)) = false := by
  have hhead : ∀ rest, more ≠ m :: rest := by
    rintro rest rfl
    obtain ⟨h₁, h₂⟩ := hmore m rfl
    rcases hm with rfl | rfl
    · exact h₁ rfl
    · exact h₂ rfl
  by_contra h
  simp only [Bool.not_eq_false, Bool.and_eq_true, List.isPrefixOf_iff_prefix] at h
  obtain ⟨⟨rest, hrest⟩, hgap⟩ := h
  -- The three characters of the mark are all of the text, or what follows them comes into play.
  rcases cs with _ | ⟨x, _ | ⟨y, _ | ⟨z, cs⟩⟩⟩
  · exact hhead _ hrest.symm
  · simp only [List.cons_append, List.nil_append, List.cons.injEq] at hrest
    exact hhead _ hrest.2.symm
  · simp only [List.cons_append, List.nil_append, List.cons.injEq] at hrest
    exact hhead _ hrest.2.2.symm
  · simp only [List.cons_append, List.nil_append, List.cons.injEq] at hrest
    obtain ⟨rfl, rfl, rfl, -⟩ := hrest
    have hnot : atGap cs = false := by
      have hgap : m = '-' ∨ m = '.' → atGap cs = false := by simpa [startsMark] using hcs
      exact hgap hm
    rw [show ((m :: m :: m :: cs) ++ more).drop 3 = cs ++ more from rfl,
      atGap_append_of_not hnot] at hgap
    cases hgap

/-- The start of a plain scalar is no mark of the document. -/
theorem atMark_of_isPlain {c : Cursor} (hplain : isPlain (x :: cs) = true)
    (hrest : c.rest = x :: (cs ++ more)) (hmore : ∀ y ∈ more.head?, y ≠ '-' ∧ y ≠ '.') :
    c.atDocumentMark = false := by
  simp only [isPlain, Bool.and_eq_true, Bool.not_eq_true'] at hplain
  obtain ⟨⟨-, hmark⟩, -⟩ := hplain
  have hno : ∀ m, m = '-' ∨ m = '.' → c.atMark [m, m, m] = false := by
    intro m hm
    rw [Cursor.atMark, hrest, Bool.and_assoc, ← List.cons_append, not_mark hm hmark hmore,
      Bool.and_false]
  exact Bool.or_eq_false_iff.2 ⟨hno '-' (Or.inl rfl), hno '.' (Or.inr rfl)⟩

/-- What is written as it is starts a plain scalar, for none of the other tokens starts so. -/
theorem readAt_plain (hplain : isPlain (x :: cs) = true) (hflow : s.outerKeys = [])
    (hrest : s.place.rest = x :: (cs ++ more)) (hmore : ∀ y ∈ more.head?, y ≠ '-' ∧ y ≠ '.') :
    s.readAt x (cs ++ more) = s.readPlain := by
  have hstart := atMark_of_isPlain hplain hrest hmore
  rw [Cursor.atDocumentMark, Bool.or_eq_false_iff] at hstart
  simp only [isPlain, Bool.and_eq_true, Bool.not_eq_true'] at hplain
  obtain ⟨⟨⟨hstarts, -⟩, -⟩, -⟩ := hplain
  have hin : s.inFlow = false := by simp [inFlow, hflow]
  -- Of the indicators only these three may start a plain scalar, and only in front of a text.
  have hgap : x = '-' ∨ x = '?' ∨ x = ':' → atGap (cs ++ more) = false := by
    intro hx
    refine atGap_append_of_not ?_ more
    rcases hx with rfl | rfl | rfl <;> simpa [startsPlain, isIndicator] using hstarts
  have hother : isIndicator x = true → x = '-' ∨ x = '?' ∨ x = ':' := by
    intro hx
    by_contra hno
    simp only [not_or] at hno
    simp [startsPlain, hx, hno] at hstarts
  have hstarts_more : startsPlain false (x :: (cs ++ more)) = true := by
    by_cases hx : x = '-' ∨ x = '?' ∨ x = ':'
    · rcases hx with rfl | rfl | rfl <;> simp [startsPlain, hgap]
    · have hno : x ≠ '-' ∧ x ≠ '?' ∧ x ≠ ':' := by simpa only [not_or] using hx
      simpa [startsPlain, hno] using hstarts
  -- So `x` is none of the characters that the other tokens start with.
  have hno : ∀ y, isIndicator y = true → y ≠ '-' → y ≠ '?' → y ≠ ':' → x ≠ y := by
    rintro y hy h₁ h₂ h₃ rfl
    rcases hother hy with h | h | h
    · exact h₁ h
    · exact h₂ h
    · exact h₃ h
  have hpercent : ¬ (s.place.column = 0 ∧ x = '%') := fun h =>
    hno '%' (by decide) (by decide) (by decide) (by decide) h.2
  have hitem : ¬ (x = '-' ∧ atGap (cs ++ more) = true) := fun h => by
    rw [hgap (Or.inl h.1)] at h
    exact absurd h.2 (by decide)
  have hkey : ¬ (x = '?' ∧ (s.inFlow = true ∨ atGap (cs ++ more) = true)) := fun h => by
    rw [hgap (Or.inr (Or.inl h.1)), hin] at h
    simp at h
  have hvalue : ¬ (x = ':' ∧ (s.inFlow = true ∨ atGap (cs ++ more) = true)) := fun h => by
    rw [hgap (Or.inr (Or.inr h.1)), hin] at h
    simp at h
  unfold readAt
  rw [if_neg hpercent, if_neg (by simp [hstart]), if_neg (by simp [hstart]), if_neg hitem,
    if_neg hkey, if_neg hvalue]
  split
  case h_11 =>
    have hbar : ¬ (x = '|' ∧ (!s.inFlow) = true) := fun h =>
      hno '|' (by decide) (by decide) (by decide) (by decide) h.1
    have hgreater : ¬ (x = '>' ∧ (!s.inFlow) = true) := fun h =>
      hno '>' (by decide) (by decide) (by decide) (by decide) h.1
    rw [if_neg hbar, if_neg hgreater, hin, if_pos hstarts_more]
  all_goals exact absurd rfl (hno _ (by decide) (by decide) (by decide) (by decide))

/-- A colon in front of a gap, and not at the start of the line, is that of a value. -/
theorem readAt_colon (hmore : atGap more = true) (hcolumn : 0 < s.place.column) :
    s.readAt ':' more = s.readValue := by
  have hmark := Cursor.not_atDocumentMark hcolumn
  rw [Cursor.atDocumentMark, Bool.or_eq_false_iff] at hmark
  simp [readAt, hmark, hmore]

end ReadAt

/-! ## Steps -/

/-- Reading on from `s` comes to reading on from `t`, as long as more tokens are allowed than there
are characters left. -/
def Reaches (s t : Lexer) : Prop :=
  ∀ fuel, s.place.rest.length < fuel →
    ∃ fuel', t.place.rest.length < fuel' ∧ run fuel s = run fuel' t

theorem Reaches.trans {u : Lexer} (hst : Reaches s t) (htu : Reaches t u) : Reaches s u := by
  intro fuel hfuel
  obtain ⟨fuel', hfuel', hrun⟩ := hst fuel hfuel
  obtain ⟨fuel'', hfuel'', hrun'⟩ := htu fuel' hfuel'
  exact ⟨fuel'', hfuel'', hrun.trans hrun'⟩

/-- One token is read, and takes up a character at least. -/
theorem reaches_of_step {a : Lexer} {x : Char} {rest : List Char} (harrive : s.toToken = .ok a)
    (hrest : a.place.rest = x :: rest) (hread : a.readAt x rest = .ok t)
    (hlt : t.place.rest.length < s.place.rest.length) : Reaches s t := by
  intro fuel hfuel
  obtain ⟨fuel, rfl⟩ := Nat.exists_eq_add_one_of_ne_zero (Nat.ne_zero_of_lt hfuel)
  refine ⟨fuel, by omega, ?_⟩
  simp only [run, harrive, bind, Except.bind, hrest, hread]

def arrive (place : Cursor) (s : Lexer) : Lexer :=
  { s with place, keyAllowed := true, possibleKey := none }

@[simp]
theorem closeBlocks_arrive (place : Cursor) :
    (s.arrive place).closeBlocks bound = (s.closeBlocks bound).arrive place := by
  unfold closeBlocks arrive inFlow
  dsimp only
  split <;> rfl

theorem openBlock_arrive (place : Cursor) (kind : Collection) (count : Nat) :
    (s.arrive place).openBlock kind column count =
      (s.openBlock kind column count).arrive place := by
  unfold openBlock arrive inFlow floor
  dsimp only
  split <;> rfl

/-- The next token is found in front of `more`, where a key may start in column `goal` if there is
one. No key is waited for any more there. -/
structure At (goal : Option Nat) (more : List Char) (s : Lexer) : Prop where
  outerKeys : s.outerKeys = []
  rest : (s.place.skip false s.keyAllowed).1.rest = more
  column : ∀ n ∈ goal, (s.place.skip false s.keyAllowed).1.column = n
  keyAllowed : ∀ n ∈ goal, (s.place.skip false s.keyAllowed).2 = true
  not_required : ∀ k ∈ s.possibleKey, k.required = false
  line_lt : ∀ k ∈ s.possibleKey, ∀ n ∈ goal,
    k.place.line < (s.place.skip false s.keyAllowed).1.line

section At

variable {goal : Option Nat} {more : List Char} {n : Nat}

theorem inFlow_eq_false (hflow : s.outerKeys = []) : s.inFlow = false := by
  simp [inFlow, hflow]

theorem dropKey_eq (h : ∀ k ∈ s.possibleKey, k.required = false) :
    s.dropKey = .ok { s with possibleKey := none } := by
  unfold dropKey
  cases hkey : s.possibleKey with
  | none => rfl
  | some k => simp [h k hkey]

/-- Going on to the next token ends the collections to the right of it and stops in front of it. -/
theorem At.toToken (h : At (some n) more s) :
    ∃ place, s.toToken = .ok ((s.closeBlocks (n + 1)).arrive place) ∧ place.rest = more ∧
      place.column = n ∧ more.length ≤ s.place.rest.length := by
  refine ⟨(s.place.skip false s.keyAllowed).1, ?_, h.rest, h.column n rfl, ?_⟩
  · rw [← closeBlocks_arrive]
    simp only [Lexer.toToken, inFlow_eq_false h.outerKeys, h.column n rfl, h.keyAllowed n rfl]
    cases hkey : s.possibleKey with
    | none =>
      simp [arrive, bind, Except.bind, pure, Except.pure]
    | some k =>
      have hstale : k.isStale (s.place.skip false s.keyAllowed).1 = true := by
        simp [PossibleKey.isStale, h.line_lt k hkey n rfl]
      have hdrop := fun place => dropKey_eq (s := { s with place, keyAllowed := true })
        h.not_required
      simp only [hkey] at hdrop
      simp only [Option.any_some, hstale, if_true, hdrop]
      rfl
  · rw [← h.rest]
    exact Cursor.length_skipFrom_le ..

/-- At the end of the text all blocks end. -/
theorem At.run_eq (h : At none [] s) {fuel : Nat} (hfuel : s.place.rest.length < fuel) :
    run fuel s = .ok (s.closeBlocks 0).tokens.reverse := by
  obtain ⟨fuel, rfl⟩ := Nat.exists_eq_add_one_of_ne_zero (Nat.ne_zero_of_lt hfuel)
  -- The possible key may be given up on the way to the end, or there.
  have harrive : ∃ t : Lexer, s.toToken = .ok (t.closeBlocks (t.place.column + 1)) ∧
      t.place.rest = [] ∧ t.outerKeys = [] ∧ t.tokens = s.tokens ∧ t.blocks = s.blocks ∧
      ∀ k ∈ t.possibleKey, k.required = false := by
    simp only [Lexer.toToken, inFlow_eq_false h.outerKeys]
    split
    · have hdrop := dropKey_eq (s := { s with
          place := (s.place.skip false s.keyAllowed).1
          keyAllowed := (s.place.skip false s.keyAllowed).2 }) h.not_required
      rw [hdrop]
      exact ⟨_, rfl, h.rest, h.outerKeys, rfl, rfl, nofun⟩
    · exact ⟨_, rfl, h.rest, h.outerKeys, rfl, rfl, h.not_required⟩
  obtain ⟨t, harrive, hrest, hflow, htokens, hblocks, hkey⟩ := harrive
  have hdrop := dropKey_eq (s := t.closeBlocks 0) (by simpa using hkey)
  have hclosed : (t.closeBlocks 0).tokens = (s.closeBlocks 0).tokens := by
    rw [closeBlocks_eq hflow, closeBlocks_eq h.outerKeys, htokens, hblocks]
  simp only [run, harrive, bind, Except.bind, place_closeBlocks, hrest, finish,
    closeBlocks_closeBlocks hflow (Nat.zero_le _), hdrop, pure, Except.pure, hclosed]

end At

end Shorthand.Yaml.Lexer
