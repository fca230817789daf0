import Shorthand.Proofs.Yaml.Lexer

/-!
The parts of an entry of a block mapping: its key, and the value behind the colon if it is a scalar.
`Lexer.reaches_key` and `Lexer.reaches_scalar` say what is read of them.
-/

namespace Shorthand.Yaml

/-- How a key is written, with its colon: as a scalar on one line, which is not too long. -/
inductive SpellsKey (style : ScalarStyle) (text : List Char) : List Char → Prop
  | mk {written blanks : List Char} (h : Spells style written text)
      (hblanks : ∀ x ∈ blanks, isSpace x = true)
      (hlength : (String.ofList (written ++ blanks)).utf8ByteSize ≤ maxKeyBytes) :
      SpellsKey style text (written ++ (blanks ++ [':']))

/-- A key starts with a character that a token can start with. -/
theorem SpellsKey.exists_cons {style : ScalarStyle} {text key : List Char}
    (h : SpellsKey style text key) (more : List Char) :
    ∃ x rest, key ++ more = x :: rest ∧ startsToken x = true := by
  cases h with
  | mk h =>
    obtain ⟨x, rest, rfl, hx⟩ := h.exists_cons
    exact ⟨x, _, rfl, hx⟩

/-- What stands between the colon of a key in column `k` and a scalar: blanks, or a text without a
token that leads to a later line, further right than the key. -/
inductive LeadsIn (k : Nat) : List Char → Prop
  | blanks {y : Char} {blanks : List Char} (hblanks : ∀ z ∈ y :: blanks, isSpace z = true) :
      LeadsIn k (y :: blanks)
  | lines {n : Nat} {gap : List Char} (hn : k < n) (h : Idle (some n) .token gap) : LeadsIn k gap

/-- A colon with such a text behind it stands in front of a gap. -/
theorem LeadsIn.atGap {k : Nat} {gap : List Char} (h : LeadsIn k gap) {x : Char}
    {rest : List Char} (hx : startsToken x = true) : Yaml.atGap (gap ++ x :: rest) = true := by
  cases h with
  | @blanks y blanks hblanks => simp [Yaml.atGap, hblanks y (by simp)]
  | lines hn h => exact h.atGap (.token hx)

namespace Lexer

variable {s : Lexer} {style : ScalarStyle} {cs text more : List Char}

/-- The block mapping in column `column` is the innermost one: those further right end, and it
starts unless it has started before. -/
def opened (column : Nat) (s : Lexer) : Lexer :=
  (s.closeBlocks (column + 1)).openBlock .mapping column 0

def behindScalar (style : ScalarStyle) (text : List Char) (place : Cursor) (keyAllowed : Bool)
    (possibleKey : Option PossibleKey) (s : Lexer) : Lexer :=
  { s with
    place, keyAllowed, possibleKey
    tokens := .scalar style (String.ofList text) :: s.tokens }

section Reading

variable {noted : Option PossibleKey} {place : Cursor} {q : Quote}

theorem readPlain_eq {broken : Bool} (hflow : s.outerKeys = [])
    (hnote : s.noteKey = .ok { s with possibleKey := noted })
    (hread : PlainScalar.read false s.floor s.place = .ok ⟨text, broken, place⟩) :
    s.readPlain = .ok (s.behindScalar .plain text place broken noted) := by
  have hin := inFlow_eq_false hflow
  rw [readPlain, hnote]
  simp only [bind, Except.bind, inFlow, floor] at hin hread ⊢
  rw [hin, hread]
  rfl

theorem readQuoted_eq (hnote : s.noteKey = .ok { s with possibleKey := noted })
    (hread : Yaml.readQuoted q s.place = .ok (text, place)) :
    s.readQuoted q = .ok (s.behindScalar .quoted text place false noted) := by
  rw [Lexer.readQuoted, hnote]
  simp only [bind, Except.bind, hread]
  rfl

end Reading

/-! ## Keys -/

/-- A scalar in front of a colon is read, with the blanks behind it or without them. -/
theorem readAt_key {x : Char} {blanks : List Char} (hspells : Spells style (x :: cs) text)
    (hflow : s.outerKeys = []) {noted : Option PossibleKey}
    (hnote : s.noteKey = .ok { s with possibleKey := noted })
    (hblanks : ∀ y ∈ blanks, isSpace y = true) (hmore : atGap more = true)
    (hrest : s.place.rest = x :: (cs ++ (blanks ++ ':' :: more))) :
    ∃ front back, x :: (cs ++ blanks) = front ++ back ∧ front ≠ [] ∧
      (∀ y ∈ front, isBreak y = false) ∧ (∀ y ∈ back, isSpace y = true) ∧
      s.readAt x (cs ++ (blanks ++ ':' :: more)) =
        .ok (s.behindScalar style text (s.place.forward front.length) false noted) := by
  have hspaces : ∀ y ∈ blanks, isBreak y = false := fun y hy => isBreak_of_isSpace (hblanks y hy)
  have hbreak := hspells.not_isBreak
  -- What follows the scalar is a blank or the colon.
  have hnext : ∀ y ∈ (blanks ++ ':' :: more).head?, isSpace y = true ∨ y = ':' := by
    intro y hy
    cases blanks with
    | nil => exact Or.inr (Option.some.inj hy).symm
    | cons z blanks => exact Or.inl (hblanks y (by simp [Option.some.inj hy]))
  cases hspells with
  | plain hplain =>
    have hhead : ∀ y ∈ (blanks ++ ':' :: more).head?, y ≠ '-' ∧ y ≠ '.' := by
      intro y hy
      rcases hnext y hy with hspace | rfl
      · rcases isSpace_eq_or hspace with rfl | rfl <;> decide
      · decide
    refine ⟨x :: (cs ++ blanks), [], by simp, by simp, ?_, nofun, ?_⟩
    · exact fun y hy => (List.mem_append.1 hy).elim (hbreak y) (hspaces y)
    · have hmark := atMark_of_isPlain hplain hrest hhead
      have hforward := Cursor.forward_eq hrest hbreak
      have hread : PlainScalar.read false s.floor s.place =
          .ok ⟨x :: cs, false, s.place.forward (x :: (cs ++ blanks)).length⟩ := by
        rw [PlainScalar.read, hrest, ← List.cons_append,
          PlainScalar.readFrom_plain [] (isPlain_iff.1 hplain).2.1 hrest hmark,
          PlainScalar.readFrom_colon hblanks (by rw [hforward]) hmore
            (by rw [hforward]; exact Nat.succ_pos _), ← Cursor.forward_add,
          ← List.cons_append, List.length_append]
        simp
      rw [readAt_plain hplain hflow hrest hhead, readPlain_eq hflow hnote hread]
  | @quoted q body _ h =>
    have hquote : (blanks ++ ':' :: more).head? ≠ some '\'' := by
      intro hy
      rcases hnext _ hy with h | h
      · cases h
      · exact absurd h (by decide)
    have hrest' : s.place.rest = q.char :: (body ++ q.char :: (blanks ++ ':' :: more)) := by
      rw [hrest]
      simp
    refine ⟨q.char :: (body ++ [q.char]), blanks, by simp, by simp, hbreak, hblanks, ?_⟩
    rw [readAt_quoted hrest, readQuoted_eq hnote (readQuoted_body h hquote hrest')]
    simp

/-- Blanks in front of a token are skipped. -/
theorem skip_blanks {c : Cursor} {x : Char} {blanks rest : List Char}
    (hblanks : ∀ y ∈ blanks, isSpace y = true) (hx : startsToken x = true)
    (hrest : c.rest = blanks ++ x :: rest) :
    c.skip false false = (c.forward blanks.length, false) := by
  induction blanks generalizing c with
  | nil =>
    obtain ⟨hspace, hbreak, hmark, hbom⟩ := startsToken_iff.1 hx
    have hblank : x ≠ ' ' ∧ x ≠ '\t' := by simpa [isSpace] using hspace
    rw [Cursor.skip, hrest]
    simp [Cursor.skipFrom, hbreak, hmark, hbom, hblank, Cursor.forward]
  | cons y blanks ih =>
    obtain ⟨hy, htail⟩ := List.forall_mem_cons.1 hblanks
    have hnext : c.next.rest = blanks ++ x :: rest := by
      rw [Cursor.rest_next, hrest]
      rfl
    have hstep : c.skip false false = c.next.skip false false := by
      rw [Cursor.skip, Cursor.skip, hrest, hnext]
      rcases isSpace_eq_or hy with rfl | rfl <;> simp [Cursor.skipFrom, isBreak]
    rw [hstep, ih htail hnext]
    rfl

structure BehindColon (k : Nat) (more : List Char) (s : Lexer) : Prop where
  outerKeys : s.outerKeys = []
  rest : s.place.rest = more
  column : k < s.place.column
  possibleKey : s.possibleKey = none
  keyAllowed : s.keyAllowed = false
  block : s.blocks.head? = some k

/-- A block collection starts in front of the last tokens as it would have without them. -/
theorem openBlock_behind {a : Lexer} {k : Nat} (front : List Token) (ha : a.outerKeys = [])
    (hs : s.outerKeys = []) (hblocks : s.blocks = a.blocks)
    (htokens : s.tokens = front ++ a.tokens) :
    s.openBlock .mapping k front.length =
      { s with
        tokens := front ++ (a.openBlock .mapping k 0).tokens
        blocks := (a.openBlock .mapping k 0).blocks } := by
  have hfloor : s.floor = a.floor := by rw [floor, floor, hblocks]
  unfold openBlock
  rw [inFlow_eq_false ha, inFlow_eq_false hs, hfloor]
  by_cases hk : k < a.floor
  · cases s
    simp_all
  · have hinsert : s.tokens.insertIdx front.length (.blockStart .mapping) =
        front ++ .blockStart .mapping :: a.tokens := by
      rw [htokens]
      clear htokens
      induction front with
      | nil => rfl
      | cons y front ih => simp [ih]
    simp [hk, hblocks, hinsert]

/-- On the line of the last token nothing ends in front of the next one. -/
theorem toToken_of_skip {c : Cursor} (hflow : s.outerKeys = []) (hallowed : s.keyAllowed = false)
    (hskip : s.place.skip false false = (c, false))
    (hkey : s.possibleKey.any (·.isStale c) = false) (hle : ∀ j ∈ s.blocks.head?, j ≤ c.column) :
    s.toToken = .ok { s with place := c } := by
  have hclose : ({ s with place := c } : Lexer).closeBlocks (c.column + 1) =
      { s with place := c } :=
    closeBlocks_of_lt hflow fun j hj => Nat.lt_succ_of_le (hle j hj)
  have hsame : ({ s with place := c, keyAllowed := false } : Lexer) = { s with place := c } := by
    rw [← hallowed]
  simp only [Lexer.toToken, inFlow_eq_false hflow, hallowed, hskip, hkey, hsame]
  simp [bind, Except.bind, pure, Except.pure, hclose]

theorem head?_openBlock {k : Nat} (hflow : s.outerKeys = []) (hle : ∀ j ∈ s.blocks.head?, j ≤ k) :
    (s.openBlock .mapping k 0).blocks.head? = some k := by
  unfold openBlock floor
  rw [inFlow_eq_false hflow]
  cases hblocks : s.blocks with
  | nil => simp
  | cons j blocks =>
    have hj : j ≤ k := hle j (by rw [hblocks]; rfl)
    by_cases hkj : k < j + 1
    · simp [hkj, hblocks]
      omega
    · simp [hkj]

/-- A colon makes a key of the scalar behind which it stands. -/
theorem readAt_colon_behindScalar {c : Cursor} {required : Bool} (hflow : s.outerKeys = [])
    (hmore : atGap more = true) (hcolumn : 0 < c.column) :
    (s.behindScalar style text c false
        (some ⟨s.tokens.length, s.place, required⟩)).readAt ':' more = .ok
      { s with
        place := c.next
        keyAllowed := false
        possibleKey := none
        tokens := .value :: .scalar style (String.ofList text) :: .key ::
          (s.openBlock .mapping s.place.column 0).tokens
        blocks := (s.openBlock .mapping s.place.column 0).blocks } := by
  generalize hb : s.behindScalar style text c false
    (some ⟨s.tokens.length, s.place, required⟩) = b
  have hb_flow : b.outerKeys = [] := by rw [← hb]; exact hflow
  have hb_place : b.place = c := by rw [← hb]; rfl
  have hb_key : b.possibleKey = some ⟨s.tokens.length, s.place, required⟩ := by rw [← hb]; rfl
  have hb_blocks : b.blocks = s.blocks := by rw [← hb]; rfl
  have hb_tokens : b.tokens = .scalar style (String.ofList text) :: s.tokens := by rw [← hb]; rfl
  have hcount : b.tokens.length - s.tokens.length = 1 := by simp [hb_tokens]
  -- The indicator of the key, and of the mapping if it starts, go in front of the scalar.
  have hopen := openBlock_behind (a := s) (k := s.place.column)
    (s := { b with
      possibleKey := none
      tokens := .scalar style (String.ofList text) :: .key :: s.tokens })
    [.scalar style (String.ofList text), .key] hflow hb_flow hb_blocks rfl
  simp only [List.length_cons, List.length_nil] at hopen
  rw [readAt_colon hmore (by rwa [hb_place])]
  simp only [readValue, hb_key, hcount]
  simp only [hb_tokens, List.insertIdx_succ_cons, List.insertIdx_zero, hopen]
  rw [← hb]
  simp [behindScalar, take, allowKey, Cursor.forward, pure, Except.pure]

/-- The colon behind a scalar that may be a key makes it one. -/
theorem reaches_colon {front back : List Char} {required : Bool} (hflow : s.outerKeys = [])
    (hle : ∀ j ∈ s.blocks.head?, j ≤ s.place.column) (hfront : front ≠ [])
    (hfront_break : ∀ y ∈ front, isBreak y = false) (hback : ∀ y ∈ back, isSpace y = true)
    (hlength : (String.ofList (front ++ back)).utf8ByteSize ≤ maxKeyBytes)
    (hmore : atGap more = true) (hrest : s.place.rest = front ++ (back ++ ':' :: more)) :
    ∃ t, Reaches (s.behindScalar style text (s.place.forward front.length) false
        (some ⟨s.tokens.length, s.place, required⟩)) t ∧ BehindColon s.place.column more t ∧
      t.blocks = (s.openBlock .mapping s.place.column 0).blocks ∧
      t.tokens = .value :: .scalar style (String.ofList text) :: .key ::
        (s.openBlock .mapping s.place.column 0).tokens := by
  have hforward := Cursor.forward_eq hrest hfront_break
  have hrest_back : (s.place.forward front.length).rest = back ++ ':' :: more := by rw [hforward]
  have hbehind := Cursor.forward_eq hrest_back fun y hy => isBreak_of_isSpace (hback y hy)
  have hskip := skip_blanks hback (by decide) hrest_back
  have hpositive : 0 < front.length := List.length_pos_iff.2 hfront
  generalize hc : (s.place.forward front.length).forward back.length = c at hskip hbehind
  have hc_rest : c.rest = ':' :: more := by rw [hbehind]
  have hc_line : c.line = s.place.line := by rw [hbehind, hforward]
  have hc_column : s.place.column < c.column := by
    rw [hbehind, hforward]
    simp only
    omega
  have hc_index : c.index ≤ s.place.index + maxKeyBytes := by
    rw [String.ofList_append, String.utf8ByteSize_append] at hlength
    rw [hbehind, hforward]
    simp only
    omega
  -- The note of the key still holds in front of the colon.
  have harrive : (s.behindScalar style text (s.place.forward front.length) false
      (some ⟨s.tokens.length, s.place, required⟩)).toToken =
      .ok (s.behindScalar style text c false (some ⟨s.tokens.length, s.place, required⟩)) := by
    refine toToken_of_skip hflow rfl hskip ?_ fun j hj => ?_
    · simp [behindScalar, PossibleKey.isStale, hc_line]
      omega
    · exact Nat.le_trans (hle j hj) (Nat.le_of_lt hc_column)
  have hpast : 0 < c.column := Nat.zero_lt_of_lt hc_column
  have hnext := Cursor.next_eq hc_rest (by decide)
  have hnext_rest : c.next.rest = more := by rw [hnext]
  refine ⟨_, reaches_of_step harrive hc_rest (readAt_colon_behindScalar hflow hmore hpast) ?_,
    ⟨hflow, hnext_rest, ?_, rfl, rfl, ?_⟩, rfl, rfl⟩
  · show c.next.rest.length < (s.place.forward front.length).rest.length
    rw [hrest_back, hnext_rest, List.length_append, List.length_cons]
    omega
  · rw [hnext]
    exact Nat.lt_succ_of_lt hc_column
  · exact head?_openBlock hflow hle

/-- A key is read with its colon. -/
theorem reaches_key {k : Nat} (hkey : SpellsKey style text cs) (hmore : atGap more = true)
    (h : At (some k) (cs ++ more) s) :
    ∃ t, Reaches s t ∧ BehindColon k more t ∧ t.blocks = (s.opened k).blocks ∧
      t.tokens = .value :: .scalar style (String.ofList text) :: .key :: (s.opened k).tokens := by
  cases hkey with
  | @mk written blanks hspells hblanks hlength =>
    obtain ⟨x, cs, rfl, hx⟩ := hspells.exists_cons
    obtain ⟨place, harrive, hrest, rfl, hle⟩ := h.toToken
    have hrest : place.rest = x :: (cs ++ (blanks ++ ':' :: more)) := by
      rw [hrest]
      simp
    -- The scalar is read with a note of the key in front of it.
    generalize ha : (s.closeBlocks (place.column + 1)).arrive place = a at harrive
    have ha_place : a.place = place := by rw [← ha]; rfl
    have ha_flow : a.outerKeys = [] := by
      rw [← ha]
      exact (outerKeys_closeBlocks).trans h.outerKeys
    have ha_blocks : a.blocks = (s.closeBlocks (place.column + 1)).blocks := by rw [← ha]; rfl
    have ha_key : a.possibleKey = none := by rw [← ha]; rfl
    have ha_allowed : a.keyAllowed = true := by rw [← ha]; rfl
    have ha_open : a.openBlock .mapping place.column 0 = (s.opened place.column).arrive place := by
      rw [← ha, opened, openBlock_arrive]
    have hle_head : ∀ j ∈ a.blocks.head?, j ≤ a.place.column := by
      rw [ha_blocks, ha_place]
      exact fun j hj => Nat.le_of_lt_succ (lt_of_mem_head?_closeBlocks h.outerKeys j hj)
    have hnote := noteKey_of_allowed ha_allowed ha_flow ha_key
    obtain ⟨front, back, hsplit, hfront, hfront_break, hback, hread⟩ :=
      readAt_key hspells ha_flow hnote hblanks hmore (by rw [ha_place, hrest])
    have hrest_split : a.place.rest = front ++ (back ++ ':' :: more) := by
      rw [ha_place, hrest, ← List.append_assoc, ← List.cons_append, hsplit, List.append_assoc]
    have hlength' : (String.ofList (front ++ back)).utf8ByteSize ≤ maxKeyBytes := by
      rw [← hsplit]
      exact hlength
    obtain ⟨t, hreach, hbehind, hblocks, htokens⟩ := reaches_colon ha_flow hle_head hfront
      hfront_break hback hlength' hmore hrest_split
    rw [ha_place, ha_open] at hblocks htokens
    rw [ha_place] at hbehind
    refine ⟨t, (reaches_of_step harrive (by rw [ha_place, hrest]) hread ?_).trans hreach, hbehind,
      hblocks, htokens⟩
    have hforward := Cursor.forward_eq hrest_split hfront_break
    have hlengths := congrArg List.length (hrest_split.symm.trans (ha_place ▸ hrest))
    have hpositive := List.length_pos_iff.2 hfront
    rw [show (behindScalar style text _ false _ a).place = a.place.forward front.length from rfl,
      hforward]
    simp only [List.length_append, List.length_cons, List.length_nil] at hlengths hle ⊢
    omega

/-! ## Scalars behind a colon -/

/-- A scalar in front of a text without a token is read, and the text is skipped. -/
theorem readAt_value {x : Char} {fill : List Char} {goal : Option Nat}
    {noted : Option PossibleKey} (hspells : Spells style (x :: cs) text) (hflow : s.outerKeys = [])
    (hnote : s.noteKey = .ok { s with possibleKey := noted }) (hfill : Idle goal .token fill)
    (hmore : Next goal more) (hgoal : ∀ n ∈ goal, n < s.floor)
    (hrest : s.place.rest = x :: (cs ++ (fill ++ more))) :
    ∃ place keyAllowed, s.readAt x (cs ++ (fill ++ more)) =
        .ok (s.behindScalar style text place keyAllowed noted) ∧
      place.rest.length ≤ (fill ++ more).length ∧
      Lands goal more (s.place.forward (x :: cs).length) .token (place.skip false keyAllowed) := by
  have hbreak := hspells.not_isBreak
  have hforward := Cursor.forward_eq hrest hbreak
  have hbehind : (s.place.forward (x :: cs).length).rest = fill ++ more := by rw [hforward]
  have hgap := hfill.atGap hmore
  -- A plain scalar reads on over the text behind it to see where it ends; a quoted one does not.
  cases hspells with
  | plain hplain =>
    have hhead : ∀ y ∈ (fill ++ more).head?, y ≠ '-' ∧ y ≠ '.' := fun y hy =>
      (ordinary_of_atGap hgap y hy).1
    have hmark := atMark_of_isPlain hplain hrest hhead
    obtain ⟨broken, place, hread, hle, hlands⟩ := PlainScalar.readFrom_idle (x :: cs).reverse
      hfill hmore hgoal hbehind (show PlainScalar.GapFits .token {} _ from rfl)
    have hread' : PlainScalar.read false s.floor s.place = .ok ⟨x :: cs, broken, place⟩ := by
      rw [PlainScalar.read, hrest, ← List.cons_append,
        PlainScalar.readFrom_plain [] (isPlain_iff.1 hplain).2.1 hrest hmark]
      simpa using hread
    refine ⟨place, broken, ?_, by rwa [hbehind] at hle, hlands⟩
    rw [readAt_plain hplain hflow hrest hhead, readPlain_eq hflow hnote hread']
  | @quoted q body _ h =>
    have hquote : (fill ++ more).head? ≠ some '\'' := fun hy =>
      (ordinary_of_atGap hgap _ hy).2 rfl
    have hrest' : s.place.rest = q.char :: (body ++ q.char :: (fill ++ more)) := by
      rw [hrest]
      simp
    have hlength : (q.char :: (body ++ [q.char])).length = body.length + 2 := by simp
    refine ⟨_, false, ?_, Nat.le_of_eq (congrArg _ hbehind), ?_⟩
    · rw [readAt_quoted hrest, readQuoted_eq hnote (readQuoted_body h hquote hrest'), hlength]
    · have hlands := hfill.lands hmore hbehind (show Spot.Fits .token false _ from rfl)
      rwa [← hbehind] at hlands

/-- A text without a token leads to the next one. -/
theorem at_of_idle {goal : Option Nat} {spot : Spot} {fill : List Char}
    (hfill : Idle goal spot fill) (hmore : Next goal more) (hflow : s.outerKeys = [])
    (hkey : s.possibleKey = none) (hrest : s.place.rest = fill ++ more)
    (hfits : spot.Fits s.keyAllowed s.place) (hspot : spot ≠ .comment) : At goal more s := by
  have hlands := hfill.lands hmore hrest hfits
  have hno : (spot == .comment) = false := by simpa using hspot
  rw [hno, ← hrest] at hlands
  refine ⟨hflow, hlands.rest, hlands.column, hlands.keyAllowed, ?_, ?_⟩ <;>
  · rw [hkey]
    nofun

/-- Where nothing but a text without a token follows a colon, the value is left out. -/
theorem BehindColon.toAt {k : Nat} {fill : List Char} {goal : Option Nat}
    (h : BehindColon k (fill ++ more) s) (hfill : Idle goal .token fill) (hmore : Next goal more) :
    At goal more s :=
  at_of_idle hfill hmore h.outerKeys h.possibleKey h.rest h.keyAllowed nofun

/-- Behind a scalar the next token is found where a text without a token leads. -/
theorem at_behindScalar {goal : Option Nat} {place : Cursor} {keyAllowed : Bool}
    {noted : Option PossibleKey} {start : Cursor} (hflow : s.outerKeys = [])
    (hlands : Lands goal more start .token (place.skip false keyAllowed))
    (hnoted : ∀ k ∈ noted, k.required = false ∧ k.place.line = start.line) :
    At goal more (s.behindScalar style text place keyAllowed noted) where
  outerKeys := hflow
  rest := hlands.rest
  column := hlands.column
  keyAllowed := hlands.keyAllowed
  not_required k hk := (hnoted k hk).1
  line_lt k hk n hn := by
    rw [(hnoted k hk).2]
    exact hlands.line_lt n hn nofun

/-- Behind its colon the value is read as one token, and the text behind it leads on to the next
key. -/
theorem reaches_scalar {k : Nat} {gap fill : List Char} {goal : Option Nat}
    (hgap : LeadsIn k gap) (hspells : Spells style cs text) (hfill : Idle goal .token fill)
    (hmore : Next goal more) (hgoal : ∀ n ∈ goal, n ≤ k)
    (h : BehindColon k (gap ++ (cs ++ (fill ++ more))) s) :
    ∃ t, Reaches s t ∧ At goal more t ∧ t.blocks = s.blocks ∧
      t.tokens = .scalar style (String.ofList text) :: s.tokens := by
  obtain ⟨x, cs, rfl, hx⟩ := hspells.exists_cons
  have hle : ∀ j ∈ s.blocks.head?, j = k := by simp [h.block]
  have hfloor : ∀ n ∈ goal, n < s.floor := by
    intro n hn
    have hk := h.block
    rw [floor]
    cases hblocks : s.blocks with
    | nil => simp [hblocks] at hk
    | cons j blocks =>
      obtain rfl : j = k := by simpa [hblocks] using hk
      exact Nat.lt_succ_of_le (hgoal n hn)
  -- The value stands on the line of its key, or on a later one and further to the right.
  cases hgap with
  | @blanks y blanks hblanks =>
    have hskip := skip_blanks hblanks hx h.rest
    have hforward := Cursor.forward_eq h.rest fun z hz => isBreak_of_isSpace (hblanks z hz)
    generalize hc : s.place.forward (y :: blanks).length = c at hskip hforward
    have hc_rest : c.rest = x :: (cs ++ (fill ++ more)) := by rw [hforward]; rfl
    have harrive := toToken_of_skip h.outerKeys h.keyAllowed hskip (by simp [h.possibleKey])
      fun j hj => by
        have := h.column
        rw [hle j hj, hforward]
        simp only
        omega
    -- Behind a colon on the same line the value cannot be a key itself.
    have hnote : ({ s with place := c } : Lexer).noteKey = _ :=
      noteKey_of_not_allowed h.keyAllowed
    obtain ⟨place, keyAllowed, hread, hlength, hlands⟩ := readAt_value (s := { s with place := c })
      hspells h.outerKeys hnote hfill hmore hfloor hc_rest
    refine ⟨_, reaches_of_step harrive hc_rest hread ?_, at_behindScalar h.outerKeys hlands ?_,
      rfl, rfl⟩
    · rw [h.rest]
      simp only [behindScalar, List.length_append, List.length_cons] at hlength ⊢
      omega
    · rw [h.possibleKey]
      nofun
  | @lines n _ hn hidle =>
    have hat := BehindColon.toAt h hidle (.token hx)
    obtain ⟨c, harrive, hc_rest, hc_column, -⟩ := hat.toToken
    rw [closeBlocks_of_lt h.outerKeys fun j hj => by rw [hle j hj]; omega] at harrive
    -- At the start of a line it could be one, and is noted as such until the next token.
    have hnote := noteKey_of_allowed (s := s.arrive c) rfl h.outerKeys rfl
    obtain ⟨place, keyAllowed, hread, hlength, hlands⟩ := readAt_value (s := s.arrive c)
      hspells h.outerKeys hnote hfill hmore hfloor hc_rest
    refine ⟨_, reaches_of_step harrive hc_rest hread ?_, at_behindScalar h.outerKeys hlands ?_,
      rfl, rfl⟩
    · rw [h.rest]
      simp only [behindScalar, List.length_append, List.length_cons] at hlength ⊢
      omega
    · have hforward := Cursor.forward_eq hc_rest hspells.not_isBreak
      rintro k' ⟨⟩
      refine ⟨?_, by rw [show (s.arrive c).place = c from rfl, hforward]⟩
      show (s.blocks.head? == some c.column) = false
      rw [h.block, hc_column]
      simp
      omega

end Lexer

end Shorthand.Yaml
