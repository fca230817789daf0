import Shorthand.Proofs.Yaml.Idle
import Shorthand.Yaml.Scalar.Plain
import Shorthand.Yaml.Scalar.Quoted
import Shorthand.Yaml.Token

/-!
Scalars on one line. `Spells` says how a text is written as a plain or as a quoted scalar;
`PlainScalar.readFrom_plain` and `readQuotedFrom_body` that it is read back up to what follows.
-/

namespace Shorthand.Yaml

/-! ## Plain scalars -/

/-- What follows the start of a plain scalar on its line is part of it: no colon in front of a gap,
no number sign behind a blank, and no blank at the end. -/
def continuesPlain (afterBlank : Bool) : List Char → Bool
  | [] => !afterBlank
  | x :: rest =>
    if isSpace x then continuesPlain true rest
    else !isBreak x && !(x = '#' && afterBlank) && !(x = ':' && atGap rest) &&
      continuesPlain false rest

def startsMark (cs : List Char) : Bool :=
  (cs.take 3 = ['-', '-', '-'] || cs.take 3 = ['.', '.', '.']) && atGap (cs.drop 3)

def isPlain (cs : List Char) : Bool :=
  startsPlain false cs && continuesPlain false cs && !startsMark cs && cs.head? != some '\uFEFF'

theorem atGap_append_of_not {cs : List Char} (h : atGap cs = false) (more : List Char) :
    atGap (cs ++ more) = false := by
  cases cs with
  | nil => cases h
  | cons x cs => exact h

namespace PlainScalar

variable {floor : Nat} {c : Cursor} {x : Char} {cs rest more text : List Char} {gap : Gap}

/-- A blank inside of a plain scalar is kept back until more of it follows. -/
theorem readFrom_blank (hx : isSpace x = true) (hgap : gap.isBroken = false) :
    readFrom false floor (x :: rest) text gap c =
      readFrom false floor rest text (gap.push x) c.next := by
  rw [readFrom, if_pos (by simp [hx]), if_neg (by simp [hgap])]

theorem push_blank (hx : isSpace x = true) (spaces : List Char) :
    ({ spaces } : Gap).push x = { spaces := spaces ++ [x] } := by
  simp [Gap.push, isBreak_of_isSpace hx]

/-- A character that is text: it is no blank, and nothing else can start or end with it. -/
theorem readFrom_text (hspace : isSpace x = false) (hbreak : isBreak x = false)
    (hgap : gap.isBroken = false) (hmark : c.atDocumentMark = false) (hcomment : x = '#' → gap = {})
    (hcolon : x = ':' → atGap rest = false) :
    readFrom false floor (x :: rest) text gap c =
      readFrom false floor rest (x :: (gap.folded.reverse ++ text)) {} c.next := by
  have hgoes : ¬ (c.atDocumentMark || x = '#' && gap ≠ {} ||
      !false && gap.isBroken && c.column < floor) = true := by
    simpa [hmark, hgap] using hcomment
  have hends : ¬ endsPlain false (x :: rest) = true := by
    by_cases hx : x = ':'
    · simp [endsPlain, hcolon hx]
    · simp [endsPlain, hx]
  have hbare : isBareColon false (x :: rest) = false := by
    unfold isBareColon
    split <;> rfl
  rw [readFrom, if_neg (by simp [hspace, hbreak]), if_neg hgoes, if_neg (by simp [hbare]),
    if_neg hends]

/-- The rest of a plain scalar on its line is read up to what follows it. -/
theorem readFrom_plain (spaces : List Char) (hcs : continuesPlain (!spaces.isEmpty) cs = true)
    (hrest : c.rest = cs ++ more) (hmark : c.atDocumentMark = false) :
    readFrom false floor (cs ++ more) text { spaces } c =
      readFrom false floor more ((spaces ++ cs).reverse ++ text) {} (c.forward cs.length) := by
  -- By induction on the text: a blank is kept until the next character is known to be text too.
  induction cs generalizing c text spaces with
  | nil =>
    obtain rfl : spaces = [] := by simpa [continuesPlain] using hcs
    rfl
  | cons x cs ih =>
    have hbehind : c.next.rest = cs ++ more := by
      rw [Cursor.rest_next, hrest]
      rfl
    have hmark' : isBreak x = false → c.next.atDocumentMark = false := by
      intro hx
      refine Cursor.not_atDocumentMark ?_
      rw [Cursor.next_eq hrest hx]
      exact Nat.succ_pos _
    rw [List.cons_append]
    by_cases hspace : isSpace x = true
    · rw [continuesPlain, if_pos hspace] at hcs
      have hcontinues : continuesPlain (!(spaces ++ [x]).isEmpty) cs = true := by
        cases spaces <;> exact hcs
      rw [readFrom_blank hspace rfl, push_blank hspace,
        ih _ hcontinues hbehind (hmark' (isBreak_of_isSpace hspace)), List.append_assoc]
      rfl
    · rw [continuesPlain, if_neg hspace] at hcs
      simp only [Bool.and_eq_true, Bool.not_eq_true', Bool.and_eq_false_iff,
        decide_eq_false_iff_not] at hcs
      obtain ⟨⟨⟨hbreak, hcomment⟩, hcolon⟩, hcontinues⟩ := hcs
      rw [readFrom_text (by simpa using hspace) hbreak rfl hmark, ih [] hcontinues
        hbehind (hmark' hbreak)]
      · simp [Gap.folded]
        rfl
      · intro hx
        have hempty : spaces.isEmpty = true := by simpa [hx] using hcomment
        rw [List.isEmpty_iff.1 hempty]
      · intro hx
        exact atGap_append_of_not (hcolon.resolve_left (not_not_intro hx)) more

/-- A plain scalar that is a key ends in front of its colon. -/
theorem readFrom_colon {spaces blanks : List Char} (hblanks : ∀ x ∈ blanks, isSpace x = true)
    (hrest : c.rest = blanks ++ ':' :: more) (hmore : atGap more = true) (hcolumn : 0 < c.column) :
    readFrom false floor (blanks ++ ':' :: more) text { spaces } c =
      .ok ⟨text.reverse, false, c.forward blanks.length⟩ := by
  induction blanks generalizing c spaces with
  | nil =>
    have hends : endsPlain false (':' :: more) = true := by simp [endsPlain, hmore]
    have hbare : isBareColon false (':' :: more) = false := by
      unfold isBareColon
      split <;> rfl
    rw [List.nil_append, readFrom, if_neg (by decide), if_neg, if_neg (by simp [hbare]),
      if_pos hends]
    · rfl
    · simp [Cursor.not_atDocumentMark hcolumn, Gap.isBroken]
  | cons x blanks ih =>
    obtain ⟨hx, htail⟩ := List.forall_mem_cons.1 hblanks
    rw [List.cons_append, readFrom_blank hx rfl, push_blank hx, ih htail]
    · rfl
    · rw [Cursor.rest_next, hrest]
      rfl
    · rw [Cursor.next_eq hrest (isBreak_of_isSpace hx)]
      exact Nat.succ_pos _

def GapFits (spot : Spot) (gap : Gap) (c : Cursor) : Prop :=
  match spot with
  | .token => gap = {}
  | .blank => gap ≠ {} ∧ gap.isBroken = false
  | .comment => False
  | .indent n => gap.isBroken = true ∧ c.column = n

theorem GapFits.fits {spot : Spot} (h : GapFits spot gap c) :
    spot.Fits gap.isBroken c ∧ spot ≠ .comment := by
  cases spot with
  | token =>
    obtain rfl : gap = {} := h
    exact ⟨rfl, by decide⟩
  | blank => exact ⟨h.2, by decide⟩
  | comment => exact h.elim
  | indent n => exact ⟨h, by simp⟩

theorem GapFits.push_blank (hgap : gap.isBroken = false) (hx : isSpace x = true) (c : Cursor) :
    GapFits .blank (gap.push x) c := by
  have hfirst : gap.first.isNone = true := by simpa [Gap.isBroken] using hgap
  have hpush : gap.push x = { gap with spaces := gap.spaces ++ [x] } := by
    simp [Gap.push, isBreak_of_isSpace hx, hfirst]
  rw [hpush]
  refine ⟨fun hnil => ?_, hgap⟩
  simpa using congrArg Gap.spaces hnil

theorem isBroken_push_break (hx : isBreak x = true) : (gap.push x).isBroken = true := by
  rw [Gap.push, if_pos hx]
  split
  · rfl
  · rename_i hfirst
    simpa [Gap.isBroken, Option.isSome_iff_ne_none] using hfirst

/-- Reading ends at a place in a text without a token that follows the scalar, and skipping the rest
of it leads behind it. -/
def Ends (floor : Nat) (text cs more : List Char) (goal : Option Nat) (spot : Spot) (gap : Gap)
    (c : Cursor) : Prop :=
  ∃ broken place, readFrom false floor (cs ++ more) text gap c =
      .ok ⟨text.reverse, broken, place⟩ ∧ place.rest.length ≤ c.rest.length ∧
    Lands goal more c spot (place.skip false broken)

section Ends

variable {goal : Option Nat} {spot : Spot}

theorem Ends.here (h : Idle goal spot cs) (hmore : Next goal more) (hrest : c.rest = cs ++ more)
    (hgap : GapFits spot gap c)
    (hread : readFrom false floor (cs ++ more) text gap c = .ok ⟨text.reverse, gap.isBroken, c⟩) :
    Ends floor text cs more goal spot gap c := by
  obtain ⟨hfits, hspot⟩ := hgap.fits
  have hno : (spot == .comment) = false := by simpa using hspot
  have hlands := h.lands hmore hrest hfits
  rw [hno, ← hrest] at hlands
  exact ⟨_, c, hread, Nat.le_refl _, hlands⟩

/-- A character that is kept in the gap is passed. -/
theorem Ends.of_next {spot' : Spot} {gap' : Gap}
    (h : Ends floor text cs more goal spot' gap' c.next)
    (hread : readFrom false floor (x :: (cs ++ more)) text gap c =
      readFrom false floor (cs ++ more) text gap' c.next)
    (hspot : c.line < c.next.line ∨ ((∀ k, spot ≠ .indent k) → ∀ k, spot' ≠ .indent k)) :
    Ends floor text (x :: cs) more goal spot gap c := by
  obtain ⟨broken, place, hends, hle, hlands⟩ := h
  exact ⟨broken, place, hread.trans hends, Nat.le_trans hle c.length_next_le,
    hlands.of_later c.line_le_next hspot⟩

/-- A plain scalar ends where a text without a token follows it. -/
theorem readFrom_idle (text : List Char) (h : Idle goal spot cs) (hmore : Next goal more)
    (hgoal : ∀ n ∈ goal, n < floor) (hrest : c.rest = cs ++ more) (hgap : GapFits spot gap c) :
    Ends floor text cs more goal spot gap c := by
  -- By induction on the text: the scalar ends in front of a comment and at the end of the text.
  induction h generalizing c gap with
  | stop spot =>
    cases hmore
    exact .here (.stop spot) .stop hrest hgap rfl
  | arrive n =>
    cases hmore with
    | @token _ x rest hx =>
      obtain ⟨hspace, hbreak, -, -⟩ := startsToken_iff.1 hx
      obtain ⟨hbroken, hcolumn⟩ := hgap
      refine .here (.arrive n) (.token hx) hrest ⟨hbroken, hcolumn⟩ ?_
      -- The next token stands further left than the scalar could go on.
      rw [List.nil_append, readFrom, if_neg (by simp [hspace, hbreak]), if_pos]
      simp [hbroken, hcolumn, hgoal n rfl]
  | @blank goal spot x rest hspot hx h ih =>
    have hbroken : gap.isBroken = false := by
      rcases hspot with rfl | rfl
      · obtain rfl : gap = {} := hgap
        rfl
      · exact hgap.2
    have hends := ih hmore hgoal (by rw [Cursor.rest_next, hrest]; rfl)
      (GapFits.push_blank hbroken hx c.next)
    refine hends.of_next (readFrom_blank hx hbroken) (Or.inr ?_)
    rintro - k ⟨⟩
  | @indent goal n rest h ih =>
    obtain ⟨hbroken, hcolumn⟩ := hgap
    have hpush : gap.push ' ' = gap := by
      have hfirst : gap.first.isNone = false := by simpa [Gap.isBroken] using hbroken
      simp [Gap.push, isBreak, hfirst]
    have hnext : c.next.column = n + 1 := by
      rw [Cursor.next_eq hrest (by decide), hcolumn]
    have hends := ih hmore hgoal (by rw [Cursor.rest_next, hrest]; rfl) ⟨hbroken, hnext⟩
    refine hends.of_next ?_ (Or.inr fun h => absurd rfl (h n))
    rw [readFrom, if_pos (by decide), if_neg (by simp), hpush]
  | @startComment goal spot rest hspot h ih =>
    refine .here (.startComment hspot h) hmore hrest hgap ?_
    have hgap_ne : gap ≠ {} := by
      cases spot with
      | token => exact absurd rfl hspot
      | blank => exact hgap.1
      | comment => exact hgap.elim
      | indent n =>
        rintro rfl
        cases hgap.1
    rw [List.cons_append, readFrom, if_neg (by decide), if_pos]
    simp [hgap_ne]
  | comment => exact hgap.elim
  | @lineBreak goal spot x rest hx h ih =>
    have hnext := Cursor.next_of_isBreak hrest hx
    have htab : x ≠ '\t' := by
      rintro rfl
      cases hx
    have hfits : GapFits (.indent 0) (gap.push x) c.next :=
      ⟨isBroken_push_break hx, by rw [hnext]⟩
    have hends := ih hmore hgoal (by rw [Cursor.rest_next, hrest]; rfl) hfits
    refine hends.of_next ?_ (Or.inl ?_)
    · rw [readFrom, if_pos (by simp [hx]), if_neg (by simp [htab])]
    · rw [hnext]
      exact Nat.lt_succ_self _

end Ends

end PlainScalar

/-! ## Quoted scalars -/

inductive SpellsChar : Quote → List Char → Char → Prop
  | itself {q : Quote} {x : Char} (hspace : isSpace x = false) (hbreak : isBreak x = false)
      (hquote : x ≠ q.char) (hescape : q = .double → x ≠ '\\') : SpellsChar q [x] x
  | doubled : SpellsChar .single ['\'', '\''] '\''
  | escape {letter x : Char} (h : escapedChar? letter = some x) :
      SpellsChar .double ['\\', letter] x
  | code {letter x : Char} {digits : List Char} (hletter : escapeWidth? letter = some digits.length)
      (h : hexChar? digits = some x) (hdigits : ∀ d ∈ digits, isBreak d = false) :
      SpellsChar .double ('\\' :: letter :: digits) x

inductive SpellsQuoted (q : Quote) : List Char → List Char → Prop
  | nil : SpellsQuoted q [] []
  | blank {x : Char} {body text : List Char} (hx : isSpace x = true)
      (h : SpellsQuoted q body text) : SpellsQuoted q (x :: body) (x :: text)
  | char {x : Char} {spelling body text : List Char} (hx : SpellsChar q spelling x)
      (h : SpellsQuoted q body text) : SpellsQuoted q (spelling ++ body) (x :: text)

namespace SpellsChar

variable {q : Quote} {spelling : List Char} {x : Char}

theorem not_isBreak_of_escape {letter : Char} (h : (escapedChar? letter).isSome = true) :
    isBreak letter = false := by
  unfold escapedChar? at h
  split at h
  all_goals first | rfl | cases h

theorem not_isBreak_of_width {letter : Char} (h : (escapeWidth? letter).isSome = true) :
    isBreak letter = false ∧ escapedChar? letter = none := by
  unfold escapeWidth? at h
  split at h
  all_goals first | exact ⟨rfl, rfl⟩ | cases h

theorem not_isBreak (h : SpellsChar q spelling x) : ∀ y ∈ spelling, isBreak y = false := by
  cases h with
  | itself hspace hbreak => simpa using hbreak
  | doubled => simp [isBreak]
  | escape h => simpa [isBreak] using not_isBreak_of_escape (by rw [h]; rfl)
  | code hletter h hdigits =>
    have hbreak := (not_isBreak_of_width (by rw [hletter]; rfl)).1
    exact List.forall_mem_cons.2 ⟨rfl, List.forall_mem_cons.2 ⟨hbreak, hdigits⟩⟩

/-- The code of a character, in as many digits as its letter asks for, is read as the character. -/
theorem escape?_of_code {letter : Char} {digits : List Char}
    (hletter : escapeWidth? letter = some digits.length) (h : hexChar? digits = some x)
    (more : List Char) : escape? (letter :: (digits ++ more)) = some (x, digits.length + 1) := by
  have hwidth : (escapeWidth? letter).isSome = true := by rw [hletter]; rfl
  have hnone := (not_isBreak_of_width hwidth).2
  simp [escape?, hnone, hletter, h]

/-- A character as it is written between quotation marks is read as that character. -/
theorem first?_eq (h : SpellsChar q spelling x) (more : List Char) :
    QuotedPiece.first? q (spelling ++ more) = some (.char x spelling.length) := by
  cases h with
  | itself hspace hbreak hquote hescape =>
    cases q with
    | single =>
      have hquote : x ≠ '\'' := hquote
      simp [QuotedPiece.first?, hspace, hbreak, hquote]
    | double =>
      have hquote : x ≠ '"' := hquote
      simp [QuotedPiece.first?, hspace, hbreak, hquote, hescape]
  | doubled => rfl
  | @escape letter x h =>
    have hbreak : isBreak letter = false := not_isBreak_of_escape (by rw [h]; rfl)
    have hescape : escape? (letter :: more) = some (x, 1) := by simp [escape?, h]
    simp [QuotedPiece.first?, isSpace, hbreak, hescape]
    rfl
  | @code letter x digits hletter h =>
    have hbreak : isBreak letter = false := (not_isBreak_of_width (by rw [hletter]; rfl)).1
    have hescape := escape?_of_code hletter h more
    simp [QuotedPiece.first?, isSpace, hbreak, hescape]
    rfl

theorem ne_nil (h : SpellsChar q spelling x) : spelling ≠ [] := by
  cases h <;> simp

end SpellsChar

theorem SpellsQuoted.not_isBreak {q : Quote} {body text : List Char}
    (h : SpellsQuoted q body text) : ∀ x ∈ body, isBreak x = false := by
  induction h with
  | nil => nofun
  | blank hx h ih => exact List.forall_mem_cons.2 ⟨isBreak_of_isSpace hx, ih⟩
  | char hx h ih => exact fun y hy => (List.mem_append.1 hy).elim (hx.not_isBreak y) (ih y)

/-- A quotation mark ends the scalar, if no other one follows it that would make it a part. -/
theorem first?_closing (q : Quote) {more : List Char} (hmore : more.head? ≠ some '\'') :
    QuotedPiece.first? q (q.char :: more) = some .closing := by
  cases q with
  | single => simp [QuotedPiece.first?, Quote.char, isSpace, isBreak, hmore]
  | double => simp [QuotedPiece.first?, Quote.char, isSpace, isBreak]

theorem first?_blank (q : Quote) {x : Char} (hx : isSpace x = true) (more : List Char) :
    QuotedPiece.first? q (x :: more) = some (.gap x) := by
  simp [QuotedPiece.first?, hx]

/-- What stands between quotation marks is read back, up to the closing one. -/
theorem readQuotedFrom_body {q : Quote} {body text : List Char} (h : SpellsQuoted q body text)
    {more : List Char} (hmore : more.head? ≠ some '\'') {fuel : Nat} (hfuel : body.length < fuel)
    {c : Cursor} (hrest : c.rest = body ++ q.char :: more) (hcolumn : 0 < c.column)
    (read spaces : List Char) :
    readQuotedFrom q fuel read { spaces } c =
      .ok (read.reverse ++ (spaces ++ text), c.forward (body.length + 1)) := by
  -- By induction on the body: a blank is kept until the character behind it is read.
  induction h generalizing c fuel read spaces with
  | nil =>
    obtain ⟨fuel, rfl⟩ := Nat.exists_eq_add_one_of_ne_zero (Nat.ne_zero_of_lt hfuel)
    rw [List.nil_append] at hrest
    rw [readQuotedFrom, if_neg (by simp [Cursor.not_atDocumentMark hcolumn, hrest]), hrest,
      first?_closing q hmore]
    simp [Gap.folded, Cursor.forward]
  | @blank x body text hx h ih =>
    obtain ⟨fuel, rfl⟩ := Nat.exists_eq_add_one_of_ne_zero (Nat.ne_zero_of_lt hfuel)
    rw [List.cons_append] at hrest
    have hnext := Cursor.next_eq hrest (isBreak_of_isSpace hx)
    rw [readQuotedFrom, if_neg (by simp [Cursor.not_atDocumentMark hcolumn, hrest]), hrest,
      first?_blank q hx]
    dsimp only
    rw [PlainScalar.push_blank hx, ih (Nat.lt_of_succ_lt_succ hfuel) (by rw [hnext])
      (by rw [hnext]; exact Nat.succ_pos _), List.append_assoc]
    rfl
  | @char x spelling body text hx h ih =>
    obtain ⟨fuel, rfl⟩ := Nat.exists_eq_add_one_of_ne_zero (Nat.ne_zero_of_lt hfuel)
    rw [List.append_assoc] at hrest
    have hforward := Cursor.forward_eq hrest hx.not_isBreak
    have hlength : 0 < spelling.length := List.length_pos_iff.2 hx.ne_nil
    rw [List.length_append] at hfuel
    rw [readQuotedFrom, if_neg (by simp [Cursor.not_atDocumentMark hcolumn, hrest, hx.ne_nil]),
      hrest, hx.first?_eq]
    dsimp only
    have hshorter : body.length < fuel := by omega
    have hread := ih hshorter (c := c.forward spelling.length) (by rw [hforward])
      (by rw [hforward]; exact Nat.add_pos_left hcolumn _)
      (x :: (({ spaces } : Gap).folded.reverse ++ read)) []
    rw [hread, ← Cursor.forward_add, List.length_append, Nat.add_assoc]
    simp [Gap.folded]

/-- A quoted scalar is read back, up to the closing quotation mark. -/
theorem readQuoted_body {q : Quote} {body text : List Char} (h : SpellsQuoted q body text)
    {more : List Char} (hmore : more.head? ≠ some '\'') {c : Cursor}
    (hrest : c.rest = q.char :: (body ++ q.char :: more)) :
    readQuoted q c = .ok (text, c.forward (body.length + 2)) := by
  have hnext := Cursor.next_eq hrest (by cases q <;> rfl)
  rw [readQuoted, readQuotedFrom_body h hmore ?_ ?_ ?_]
  · rfl
  · rw [hrest, List.length_cons, List.length_append, List.length_cons]
    omega
  · rw [hnext]
  · rw [hnext]
    exact Nat.succ_pos _

/-! ## Scalars -/

inductive Spells : ScalarStyle → List Char → List Char → Prop
  | plain {text : List Char} (h : isPlain text = true) : Spells .plain text text
  | quoted (q : Quote) {body text : List Char} (h : SpellsQuoted q body text) :
      Spells .quoted (q.char :: (body ++ [q.char])) text

theorem continuesPlain_not_isBreak {afterBlank : Bool} {cs : List Char}
    (h : continuesPlain afterBlank cs = true) : ∀ x ∈ cs, isBreak x = false := by
  induction cs generalizing afterBlank with
  | nil => nofun
  | cons x cs ih =>
    rw [continuesPlain] at h
    split at h
    · rename_i hspace
      exact List.forall_mem_cons.2 ⟨isBreak_of_isSpace hspace, ih h⟩
    · simp only [Bool.and_eq_true, Bool.not_eq_true'] at h
      exact List.forall_mem_cons.2 ⟨h.1.1.1, ih h.2⟩

theorem isPlain_iff {cs : List Char} : isPlain cs = true ↔ startsPlain false cs = true ∧
    continuesPlain false cs = true ∧ startsMark cs = false ∧ cs.head? ≠ some '\uFEFF' := by
  simp [isPlain, and_assoc]

namespace Spells

variable {style : ScalarStyle} {written text : List Char}

/-- A scalar on one line holds no line break. -/
theorem not_isBreak (h : Spells style written text) : ∀ x ∈ written, isBreak x = false := by
  cases h with
  | plain h => exact continuesPlain_not_isBreak (isPlain_iff.1 h).2.1
  | quoted q h =>
    have hquote : isBreak q.char = false := by cases q <;> rfl
    have hbody := h.not_isBreak
    intro x hx
    rcases List.mem_cons.1 hx with rfl | hx
    · exact hquote
    · rcases List.mem_append.1 hx with hx | hx
      · exact hbody x hx
      · rw [List.mem_singleton.1 hx, hquote]

/-- A scalar starts with a character that a token can start with. -/
theorem exists_cons (h : Spells style written text) :
    ∃ x rest, written = x :: rest ∧ startsToken x = true := by
  cases h with
  | plain h =>
    obtain ⟨hstarts, -, -, hbom⟩ := isPlain_iff.1 h
    cases written with
    | nil => cases hstarts
    | cons x rest =>
      refine ⟨x, rest, rfl, startsToken_iff.2 ?_⟩
      have hbom : x ≠ '\uFEFF' := by simpa using hbom
      by_cases hx : x = '-' ∨ x = '?' ∨ x = ':'
      · rcases hx with rfl | rfl | rfl <;> exact ⟨rfl, rfl, by decide, hbom⟩
      · have hno : x ≠ '-' ∧ x ≠ '?' ∧ x ≠ ':' := by simpa only [not_or] using hx
        have hnot : (isSpace x = false ∧ isBreak x = false) ∧ isIndicator x = false := by
          simpa [startsPlain, hno] using hstarts
        obtain ⟨⟨hspace, hbreak⟩, hind⟩ := hnot
        refine ⟨hspace, hbreak, ?_, hbom⟩
        rintro rfl
        cases hind
  | quoted q h =>
    refine ⟨q.char, _, rfl, ?_⟩
    cases q <;> rfl

end Spells

end Shorthand.Yaml
