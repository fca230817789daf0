import Shorthand.Proofs.Yaml.Entry
import Shorthand.Yaml.Document

/-!
Block mappings. `BlockText` is the grammar of the texts that write one, with single-line scalars and
further block mappings as values; `read_blockDocument` says that such a text is read as the entries
that it writes.
-/

namespace Shorthand.Yaml

def Node.ofText (style : ScalarStyle) (text : List Char) : Node :=
  .scalar {} style (String.ofList text)

/-- The entries that a text writes in a block mapping whose keys stand in column `k`, from the first
key on. Behind the text a token stands in column `goal`, or nothing. -/
inductive BlockText : Nat → Option Nat → List Char → List (Node × Node) → Prop
  | empty {k : Nat} {goal : Option Nat} {style : ScalarStyle} {name key fill : List Char}
      (hkey : SpellsKey style name key) (hfill : Idle goal .token fill) :
      BlockText k goal (key ++ fill) [(.ofText style name, .empty {})]
  | scalar {k : Nat} {goal : Option Nat} {style style' : ScalarStyle}
      {name key gap value written fill : List Char} (hkey : SpellsKey style name key)
      (hgap : LeadsIn k gap) (hvalue : Spells style' written value)
      (hfill : Idle goal .token fill) :
      BlockText k goal (key ++ (gap ++ (written ++ fill)))
        [(.ofText style name, .ofText style' value)]
  | mapping {k n : Nat} {goal : Option Nat} {style : ScalarStyle} {name key gap cs : List Char}
      {es : List (Node × Node)} (hkey : SpellsKey style name key) (hn : k < n)
      (hgap : Idle (some n) .token gap) (h : BlockText n goal cs es) :
      BlockText k goal (key ++ (gap ++ cs)) [(.ofText style name, .mapping {} es)]
  | append {k : Nat} {goal : Option Nat} {cs cs' : List Char} {es es' : List (Node × Node)}
      (h : BlockText k (some k) cs es) (h' : BlockText k goal cs' es') :
      BlockText k goal (cs ++ cs') (es ++ es')

/-! ## Tokens of entries -/

def EntryTokens (tokens : List Token) (es : List (Node × Node)) : Prop :=
  ∀ ⦃more rest : List Token⦄ ⦃es' : List (Node × Node)⦄,
    (∀ fuel, more.length < fuel → Node.readEntries fuel more = .ok (es', rest)) →
    ∀ fuel, (tokens ++ more).length < fuel →
      Node.readEntries fuel (tokens ++ more) = .ok (es ++ es', rest)

namespace EntryTokens

variable {tokens tokens' more rest : List Token} {es es' : List (Node × Node)}
  {style style' : ScalarStyle} {name value : List Char}

/-- Tokens of entries can stand one behind the other, and so do the entries. -/
theorem append (h : EntryTokens tokens es) (h' : EntryTokens tokens' es') :
    EntryTokens (tokens ++ tokens') (es ++ es') := by
  intro more rest es'' hmore
  rw [List.append_assoc, List.append_assoc]
  exact h (h' hmore)

/-- Entries start with the indicator of a key, or with the end of the mapping. -/
theorem head?_of_readEntries {fuel : Nat} {found : List (Node × Node) × List Token}
    (h : Node.readEntries (fuel + 1) more = .ok found) :
    more.head? = some .key ∨ more.head? = some .blockEnd := by
  unfold Node.readEntries at h
  split at h
  · cases ‹_ + 1 = 0›
  · exact Or.inr rfl
  · exact Or.inl rfl
  · cases h

/-- A scalar is a node of its own, whatever is around it. -/
theorem read_scalar (around : Node.Surroundings) (fuel : Nat) (text : String) :
    Node.read around (fuel + 1) (.scalar style text :: rest) = .ok (.scalar {} style text, rest) :=
  rfl

/-- A mapping whose entries are read is a node, except in a flow collection. -/
theorem read_mapping {around : Node.Surroundings} (haround : around ≠ .flow) {fuel : Nat}
    (h : Node.readEntries fuel more = .ok (es, rest)) :
    Node.read around (fuel + 1) (.blockStart .mapping :: more) = .ok (.mapping {} es, rest) := by
  show (if around = .flow then _ else Node.readEntries fuel more >>= _) = _
  rw [if_neg haround, h]
  rfl

/-- A key and the tokens of its value are an entry, if reading the value takes up these tokens. -/
theorem entry (tokens : List Token) {node : Node}
    (hread : ∀ fuel, (tokens ++ more).length < fuel →
      Node.orEmpty Node.entryEnds (Node.read .blockMapping fuel) (tokens ++ more) =
        .ok (node, more))
    (hmore : ∀ fuel, more.length < fuel → Node.readEntries fuel more = .ok (es', rest))
    {fuel : Nat} (hfuel : (tokens ++ more).length + 3 < fuel) :
    Node.readEntries fuel
        (.key :: .scalar style (String.ofList name) :: .value :: (tokens ++ more)) =
      .ok ((.ofText style name, node) :: es', rest) := by
  obtain ⟨fuel, rfl⟩ := Nat.exists_eq_add_of_le' (show 2 ≤ fuel by omega)
  have hvalue := hread (fuel + 1) (by omega)
  have hrest := hmore (fuel + 1) (by rw [List.length_append] at hfuel; omega)
  -- The key takes one step, as the value and the entries behind it do.
  show (Node.orEmpty Node.entryEnds (Node.read .blockMapping (fuel + 1)) (tokens ++ more) >>=
    fun found => Node.readEntries (fuel + 1) found.2 >>= fun found' =>
      .ok ((Node.ofText style name, found.1) :: found'.1, found'.2)) = _
  rw [hvalue]
  show (Node.readEntries (fuel + 1) more >>= fun found' =>
    .ok ((Node.ofText style name, node) :: found'.1, found'.2)) = _
  rw [hrest]
  rfl

theorem empty : EntryTokens [.key, .scalar style (String.ofList name), .value]
    [(.ofText style name, .empty {})] := by
  intro more rest es' hmore fuel hfuel
  have hends : more.head?.any (Node.entryEnds.contains ·) = true := by
    rcases head?_of_readEntries (hmore (more.length + 1) (Nat.lt_succ_self _)) with h | h <;>
      rw [h] <;> rfl
  refine entry [] (fun fuel _ => ?_) hmore (by simpa using hfuel)
  rw [List.nil_append, Node.orEmpty, if_pos hends]

theorem scalar : EntryTokens
    [.key, .scalar style (String.ofList name), .value, .scalar style' (String.ofList value)]
    [(.ofText style name, .ofText style' value)] := by
  intro more rest es' hmore fuel hfuel
  refine entry [.scalar style' (String.ofList value)] (fun fuel hfuel => ?_) hmore
    (by simpa using hfuel)
  obtain ⟨fuel, rfl⟩ := Nat.exists_eq_add_one_of_ne_zero (Nat.ne_zero_of_lt hfuel)
  exact read_scalar .blockMapping fuel _

theorem mapping (h : EntryTokens tokens es) : EntryTokens
    (.key :: .scalar style (String.ofList name) :: .value :: .blockStart .mapping ::
      (tokens ++ [.blockEnd])) [(.ofText style name, .mapping {} es)] := by
  intro more rest es' hmore fuel hfuel
  refine entry (.blockStart .mapping :: (tokens ++ [.blockEnd])) (fun fuel hfuel => ?_) hmore
    (by simpa using hfuel)
  obtain ⟨fuel, rfl⟩ := Nat.exists_eq_add_one_of_ne_zero (Nat.ne_zero_of_lt hfuel)
  have hend : ∀ fuel, (Token.blockEnd :: more).length < fuel →
      Node.readEntries fuel (.blockEnd :: more) = .ok ([], more) := by
    intro fuel hfuel
    obtain ⟨fuel, rfl⟩ := Nat.exists_eq_add_one_of_ne_zero (Nat.ne_zero_of_lt hfuel)
    rfl
  have hread := h hend fuel (by simp at hfuel ⊢; omega)
  rw [List.append_nil] at hread
  have hread := read_mapping (show Node.Surroundings.blockMapping ≠ .flow from nofun) hread
  simpa [Node.orEmpty, Node.entryEnds] using hread

end EntryTokens

/-! ## Reading a block mapping -/

namespace Lexer

variable {s t : Lexer} {k : Nat} {goal : Option Nat} {more : List Char} {tokens : List Token}

/-- Reading leads from `s` to `t`, in front of `more`, and adds these tokens to the mapping in
column `k`. Mappings further right may not have ended yet. -/
structure Reads (k : Nat) (goal : Option Nat) (more : List Char) (tokens : List Token)
    (s t : Lexer) : Prop where
  reaches : Reaches s t
  found : At goal more t
  blocks : (t.closeBlocks (k + 1)).blocks = (s.opened k).blocks
  tokens : (t.closeBlocks (k + 1)).tokens = tokens.reverse ++ (s.opened k).tokens

/-- A mapping that has started does not start again. -/
theorem opened_of_head? (h : (s.closeBlocks (k + 1)).blocks.head? = some k) :
    s.opened k = s.closeBlocks (k + 1) := by
  have hfloor : k < (s.closeBlocks (k + 1)).floor := by
    rw [floor]
    cases hblocks : (s.closeBlocks (k + 1)).blocks with
    | nil => simp [hblocks] at h
    | cons j blocks =>
      obtain rfl : j = k := by simpa [hblocks] using h
      exact Nat.lt_succ_self j
  rw [opened, openBlock, if_pos (by simp [hfloor])]

/-- A mapping starts to the right of all others. -/
theorem opened_of_lt (hflow : s.outerKeys = []) (h : ∀ j ∈ s.blocks.head?, j < k) :
    s.opened k =
      { s with tokens := .blockStart .mapping :: s.tokens, blocks := k :: s.blocks } := by
  have hclose := closeBlocks_of_lt hflow fun j hj => Nat.lt_succ_of_lt (h j hj)
  have hfloor : ¬ k < s.floor := by
    rw [floor]
    cases hblocks : s.blocks with
    | nil => simp
    | cons j blocks =>
      have := h j (by rw [hblocks]; rfl)
      simp only
      omega
  rw [opened, hclose, openBlock, if_neg (by simp [inFlow_eq_false hflow, hfloor])]
  rfl

theorem head?_opened (hflow : s.outerKeys = []) (k : Nat) :
    (s.opened k).blocks.head? = some k :=
  head?_openBlock (by simpa using hflow) fun j hj =>
    Nat.le_of_lt_succ (lt_of_mem_head?_closeBlocks hflow j hj)

/-- The innermost mapping ends. -/
theorem closeBlocks_cons (bound : Nat) {blocks : List Nat} (hflow : s.outerKeys = [])
    (hblocks : s.blocks = k :: blocks) (hk : bound ≤ k) (hlt : ∀ j ∈ blocks.head?, j < bound) :
    (s.closeBlocks bound).blocks = blocks ∧
      (s.closeBlocks bound).tokens = .blockEnd :: s.tokens := by
  rw [closeBlocks_eq hflow, hblocks]
  cases blocks with
  | nil => simp [hk]
  | cons j blocks =>
    have hj : ¬ bound ≤ j := Nat.not_le.2 (hlt j rfl)
    simp [hk, hj]

end Lexer

open Lexer

namespace BlockText

variable {k : Nat} {goal : Option Nat} {cs more : List Char} {es : List (Node × Node)}

/-- The text of a mapping starts with a character that a token can start with. -/
theorem exists_cons (h : BlockText k goal cs es) :
    ∃ x rest, cs = x :: rest ∧ startsToken x = true := by
  induction h with
  | empty hkey => exact hkey.exists_cons _
  | scalar hkey => exact hkey.exists_cons _
  | mapping hkey => exact hkey.exists_cons _
  | append h h' ih ih' =>
    obtain ⟨x, rest, rfl, hx⟩ := ih
    exact ⟨x, _, rfl, hx⟩

/-- A text of entries begins with a token in the column of its keys. -/
theorem next (h : BlockText k goal cs es) (more : List Char) : Next (some k) (cs ++ more) := by
  obtain ⟨x, rest, rfl, hx⟩ := h.exists_cons
  exact .token hx

/-- A text of the grammar is read as the tokens of the entries that it writes. -/
theorem reads (h : BlockText k goal cs es) (hgoal : ∀ n ∈ goal, n ≤ k) (hmore : Next goal more)
    {s : Lexer} (hat : At (some k) (cs ++ more) s) :
    ∃ t tokens, Reads k goal more tokens s t ∧ EntryTokens tokens es := by
  -- By induction on the text; where it goes on at a key, the mapping has started already.
  induction h generalizing s more with
  | @empty k goal style name key fill hkey hfill =>
    rw [List.append_assoc] at hat
    obtain ⟨t, hreaches, hbehind, hblocks, htokens⟩ := reaches_key hkey (hfill.atGap hmore) hat
    have hclose : t.closeBlocks (k + 1) = t :=
      closeBlocks_of_lt hbehind.outerKeys (by simp [hbehind.block])
    refine ⟨t, _, ⟨hreaches, hbehind.toAt hfill hmore, ?_, ?_⟩, .empty⟩
    · rw [hclose, hblocks]
    · rw [hclose, htokens]
      rfl
  | @scalar k goal style style' name key gap value written fill hkey hgap hvalue hfill =>
    simp only [List.append_assoc] at hat
    obtain ⟨x, rest, rfl, hx⟩ := hvalue.exists_cons
    obtain ⟨t, hreaches, hbehind, hblocks, htokens⟩ := reaches_key hkey (hgap.atGap hx) hat
    obtain ⟨u, hreaches', hat', hblocks', htokens'⟩ :=
      reaches_scalar hgap hvalue hfill hmore hgoal hbehind
    have hclose : u.closeBlocks (k + 1) = u :=
      closeBlocks_of_lt hat'.outerKeys (by simp [hblocks', hbehind.block])
    refine ⟨u, _, ⟨hreaches.trans hreaches', hat', ?_, ?_⟩, .scalar⟩
    · rw [hclose, hblocks', hblocks]
    · rw [hclose, htokens', htokens]
      rfl
  | @mapping k n goal style name key gap cs es hkey hn hgap h ih =>
    simp only [List.append_assoc] at hat
    obtain ⟨t, hreaches, hbehind, hblocks, htokens⟩ :=
      reaches_key hkey (hgap.atGap (h.next more)) hat
    obtain ⟨u, tokens, hreads, hentries⟩ :=
      ih (fun m hm => Nat.le_trans (hgoal m hm) (Nat.le_of_lt hn)) hmore
        (hbehind.toAt hgap (h.next more))
    -- The mapping inside ends behind its last entry.
    have hhead : ∀ j ∈ t.blocks.head?, j = k := by simp [hbehind.block]
    have hopened := opened_of_lt (k := n) hbehind.outerKeys fun j hj => by
      rw [hhead j hj]
      exact hn
    have hflow : (u.closeBlocks (n + 1)).outerKeys = [] := by simpa using hreads.found.outerKeys
    have hinner : (u.closeBlocks (n + 1)).blocks = n :: t.blocks := by rw [hreads.blocks, hopened]
    obtain ⟨hclosed, hended⟩ := closeBlocks_cons (k + 1) hflow hinner hn fun j hj => by
      rw [hhead j hj]
      exact Nat.lt_succ_self k
    rw [closeBlocks_closeBlocks hreads.found.outerKeys (by omega)] at hclosed hended
    refine ⟨u, _, ⟨hreaches.trans hreads.reaches, hreads.found, ?_, ?_⟩, .mapping hentries⟩
    · rw [hclosed, hblocks]
    · rw [hended, hreads.tokens, hopened, htokens]
      simp
  | @append k goal cs cs' es es' h h' ih ih' =>
    rw [List.append_assoc] at hat
    obtain ⟨t, tokens, hreads, hentries⟩ := ih (by simp) (h'.next more) hat
    obtain ⟨u, tokens', hreads', hentries'⟩ := ih' hgoal hmore hreads.found
    have hopened : t.opened k = t.closeBlocks (k + 1) := by
      refine opened_of_head? ?_
      rw [hreads.blocks, head?_opened hat.outerKeys]
    refine ⟨u, tokens ++ tokens', ⟨hreads.reaches.trans hreads'.reaches, hreads'.found, ?_, ?_⟩,
      hentries.append hentries'⟩
    · rw [hreads'.blocks, hopened, hreads.blocks]
    · rw [hreads'.tokens, hopened, hreads.tokens, List.reverse_append, List.append_assoc]

end BlockText

/-! ## Documents -/

/-- What stands in front of the first key, in column `k`: a mark of the start of the document, or
none. -/
inductive Opens (k : Nat) : List Char → Prop
  | bare {fill : List Char} (h : Idle (some k) (.indent 0) fill) : Opens k fill
  | marked {before fill : List Char} (hbefore : Idle (some 0) (.indent 0) before)
      (h : Idle (some k) .token fill) : Opens k (before ++ '-' :: '-' :: '-' :: fill)

/-- The entries that the text of a document writes. -/
inductive BlockDocument : List Char → List (Node × Node) → Prop
  | nothing {cs : List Char} (h : Idle none (.indent 0) cs) : BlockDocument cs []
  | entries {k : Nat} {front cs : List Char} {es : List (Node × Node)} (hfront : Opens k front)
      (h : BlockText k none cs es) : BlockDocument (front ++ cs) es

/-- The tokens of a block mapping. -/
theorem BlockText.run_eq {k : Nat} {cs : List Char} {es : List (Node × Node)}
    (h : BlockText k none cs es) {s : Lexer} (hat : At (some k) cs s) (hblocks : s.blocks = [])
    {fuel : Nat} (hfuel : s.place.rest.length < fuel) :
    ∃ tokens, run fuel s =
      .ok (s.tokens.reverse ++ .blockStart .mapping :: (tokens ++ [.blockEnd])) ∧
      EntryTokens tokens es := by
  obtain ⟨t, tokens, hreads, hentries⟩ := h.reads nofun .stop (by rwa [List.append_nil])
  obtain ⟨fuel', hfuel', hrun⟩ := hreads.reaches fuel hfuel
  have hopened := opened_of_lt (k := k) hat.outerKeys (by simp [hblocks])
  have hflow : (t.closeBlocks (k + 1)).outerKeys = [] := by simpa using hreads.found.outerKeys
  have hinner : (t.closeBlocks (k + 1)).blocks = [k] := by rw [hreads.blocks, hopened, hblocks]
  obtain ⟨-, hended⟩ := closeBlocks_cons 0 hflow hinner (Nat.zero_le k) nofun
  rw [closeBlocks_closeBlocks hreads.found.outerKeys (Nat.zero_le _)] at hended
  refine ⟨tokens, ?_, hentries⟩
  rw [hrun, hreads.found.run_eq hfuel', hended, hreads.tokens, hopened]
  simp

/-- A mark of the start of a document is read. -/
theorem reaches_mark {s : Lexer} {rest : List Char} (hrest : atGap rest = true)
    (hat : At (some 0) ('-' :: '-' :: '-' :: rest) s) (hblocks : s.blocks = []) :
    ∃ t, Reaches s t ∧ t.outerKeys = [] ∧ t.possibleKey = none ∧ t.keyAllowed = false ∧
      t.blocks = [] ∧ t.tokens = .documentStart :: s.tokens ∧ t.place.rest = rest := by
  obtain ⟨place, harrive, hplace, hcolumn, hle⟩ := hat.toToken
  have hclose : ∀ bound, s.closeBlocks bound = s := fun bound =>
    closeBlocks_of_lt hat.outerKeys (by simp [hblocks])
  rw [hclose] at harrive
  have hread : (s.arrive place).readAt '-' ('-' :: '-' :: rest) =
      .ok (((s.arrive place).take 3 .documentStart).allowKey false) := by
    have hmark : (s.arrive place).place.atStartMark = true := by
      simp [Cursor.atStartMark, Cursor.atMark, arrive, hplace, hcolumn, hrest]
    have hpercent : ¬ ((s.arrive place).place.column = 0 ∧ '-' = '%') := fun h =>
      absurd h.2 (by decide)
    unfold readAt
    rw [if_neg hpercent, if_pos hmark, readDocumentMark, closeBlocks_arrive, hclose,
      dropKey_eq (by simp [arrive])]
    rfl
  have hforward : (place.forward 3).rest = rest := by rw [Cursor.rest_forward, hplace]; rfl
  refine ⟨_, reaches_of_step harrive hplace hread ?_, hat.outerKeys, rfl, rfl, hblocks, rfl,
    hforward⟩
  show (place.forward 3).rest.length < _
  rw [hforward]
  simp only [List.length_cons] at hle
  omega

/-- A block mapping is the root of its document. -/
theorem Document.ofTokens_mapping {start tokens : List Token} {es : List (Node × Node)}
    (hstart : start = [] ∨ start = [.documentStart]) (h : EntryTokens tokens es) :
    ofTokens (start ++ .blockStart .mapping :: (tokens ++ [.blockEnd])) =
      .ok (some (ofRoot (.mapping {} es))) := by
  have hend : ∀ fuel, [Token.blockEnd].length < fuel →
      Node.readEntries fuel [Token.blockEnd] = .ok ([], []) := by
    intro fuel hfuel
    obtain ⟨fuel, rfl⟩ := Nat.exists_eq_add_one_of_ne_zero (Nat.ne_zero_of_lt hfuel)
    rfl
  generalize hbody : Token.blockStart .mapping :: (tokens ++ [Token.blockEnd]) = body
  have hread : ∀ fuel, body.length < fuel → Node.read .block fuel body =
      .ok (.mapping {} es, []) := by
    intro fuel hfuel
    rw [← hbody] at hfuel ⊢
    obtain ⟨fuel, rfl⟩ := Nat.exists_eq_add_one_of_ne_zero (Nat.ne_zero_of_lt hfuel)
    have hentries := h hend fuel (Nat.lt_of_succ_lt_succ hfuel)
    rw [List.append_nil] at hentries
    exact EntryTokens.read_mapping (by decide) hentries
  -- The mark in front is passed over by the reader of the root.
  have hroot : readRoot (3 * (start ++ body).length + 3) (start ++ body) =
      .ok (.mapping {} es, []) := by
    rw [← hread (3 * (start ++ body).length + 3) (by rw [List.length_append]; omega), ← hbody]
    rcases hstart with rfl | rfl <;> rfl
  have hempty : (start ++ body).isEmpty = false := by simp [← hbody]
  have hhead : (start ++ body).head? ≠ some .directive := by
    rcases hstart with rfl | rfl <;> simp [← hbody]
  have hdrop : (start ++ body).dropWhile (· == .directive) = start ++ body := by
    rcases hstart with rfl | rfl <;> simp [← hbody]
  rw [ofTokens]
  simp only [hempty, hdrop, hhead, hroot, false_and, bind, Except.bind]
  rfl

/-- The document of a block mapping, or none if nothing is written. -/
theorem read_blockDocument {text : String} {es : List (Node × Node)}
    (hallowed : text.toList.all isAllowed = true)
    (h : BlockDocument (unifyBreaks text.toList) es) :
    read text = .ok (some (.ofRoot (.mapping {} es))) ∨ read text = .ok none ∧ es = [] := by
  rw [read, hallowed]
  generalize unifyBreaks text.toList = cs at h
  show ((Token.readAll cs >>= _) = _) ∨ (Token.readAll cs >>= _) = _ ∧ _
  have hstart : Spot.Fits (.indent 0) true { rest := cs } := ⟨rfl, rfl⟩
  rw [Token.readAll]
  cases h with
  | nothing h =>
    have hat := at_of_idle (s := { place := { rest := cs } }) h .stop rfl rfl
      (List.append_nil _).symm hstart nofun
    rw [hat.run_eq (Nat.lt_succ_self _)]
    exact Or.inr ⟨rfl, rfl⟩
  | @entries k front cs es hfront h =>
    refine Or.inl ?_
    have hnext := h.next []
    rw [List.append_nil] at hnext
    -- The entries begin at once, or behind a mark that is a token of its own.
    cases hfront with
    | bare hfill =>
      have hat := at_of_idle (s := { place := { rest := _ } }) hfill hnext rfl rfl rfl hstart nofun
      obtain ⟨tokens, hrun, hentries⟩ := h.run_eq hat rfl (Nat.lt_succ_self _)
      rw [hrun]
      exact Document.ofTokens_mapping (Or.inl rfl) hentries
    | @marked before fill hbefore hfill =>
      have hmark : Next (some 0) ('-' :: '-' :: '-' :: (fill ++ cs)) := .token (by decide)
      have hat := at_of_idle (s := { place := { rest := _ } }) hbefore hmark rfl rfl
        (by simp) hstart nofun
      obtain ⟨t, hreaches, hflow, hkey, hallowed, hblocks, htokens, hrest⟩ :=
        reaches_mark (hfill.atGap hnext) hat rfl
      obtain ⟨fuel, hfuel, hrun⟩ := hreaches _ (Nat.lt_succ_self _)
      have hat' := at_of_idle hfill hnext hflow hkey hrest hallowed nofun
      obtain ⟨tokens, hrun', hentries⟩ := h.run_eq hat' hblocks hfuel
      rw [hrun, hrun', htokens]
      exact Document.ofTokens_mapping (Or.inr rfl) hentries

end Shorthand.Yaml
