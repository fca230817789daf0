import Shorthand.Proofs.Command.Keyword
import Shorthand.Proofs.Command.Rules
import Shorthand.Proofs.Slot.Fault
import Shorthand.Proofs.Slot.Grammar

/-!
Which lines cannot be read. A line is read word by word, and only a torn compact range in a place
where a time is looked for keeps it from becoming a command.
-/

namespace Shorthand

open Text

/-! ## Where a time is looked for -/

/-- The word is tried as the time of an event: it is no name, and every word in front of it is a
name or is read and is no time. -/
inductive Tried (now : ClockReading) (word : List Char) : List (List Char) → Prop
  | here {after : List (List Char)} (hword : word.head? ≠ some '@') : Tried now word (word :: after)
  | behind {w : List Char} {ws : List (List Char)}
      (hw : w.head? = some '@' ∨ Slot.read now w = .ok {}) (h : Tried now word ws) :
      Tried now word (w :: ws)

/-- The word is looked at as a time in a line of these words. -/
inductive Consults (now : ClockReading) (word : List Char) : List (List Char) → Prop
  | block {first : List Char} {rest : List (List Char)}
      (hfirst : String.ofList (lower first) ∈ ["blk", "block"])
      (hword : BlockKind.ofWord? word = none) : Consults now word (first :: word :: rest)
  | blockOfKind {first second : List Char} {kind : BlockKind} {rest : List (List Char)}
      (hfirst : String.ofList (lower first) ∈ ["blk", "block"])
      (hsecond : BlockKind.ofWord? second = some kind) :
      Consults now word (first :: second :: word :: rest)
  | event {first second : List Char} {rest : List (List Char)}
      (hfirst : String.ofList (lower first) ∈ ["evt", "event"])
      (hsecond : EventKind.ofWord? second = none) (h : Tried now word (second :: rest)) :
      Consults now word (first :: second :: rest)
  | eventOfKind {first second : List Char} {kind : EventKind} {rest : List (List Char)}
      (hfirst : String.ofList (lower first) ∈ ["evt", "event"])
      (hsecond : EventKind.ofWord? second = some kind) (h : Tried now word rest) :
      Consults now word (first :: second :: rest)
  | everydayWord {first : List Char} {rest : List (List Char)}
      (hfirst : String.ofList (lower first) ∈ ["deep", "admin", "break", "exercise", "personal",
        "meeting", "standup", "call", "review"])
      (hword : word.head? ≠ some '@') : Consults now word (first :: word :: rest)
  | eventWord {first name : List Char} {rest : List (List Char)}
      (hfirst : String.ofList (lower first) ∈ ["meeting", "standup", "call", "review"])
      (hname : name.head? = some '@') (h : Tried now word rest) :
      Consults now word (first :: name :: rest)
  | now {first : List Char} {rest : List (List Char)}
      (hfirst : String.ofList (lower first) = "now") : Consults now word (first :: word :: rest)

inductive Head.Consults (now : ClockReading) (word : List Char) : Head → Prop
  | block {kind : BlockKind} {rest : List (List Char)} :
      Consults now word (.block kind (word :: rest))
  | event {kind : EventKind} {rest : List (List Char)} (h : Tried now word rest) :
      Consults now word (.event kind rest)
  | quick {action : QuickAction} : Consults now word (.quick action (some word))

theorem Tried.mem {now : ClockReading} {word : List Char} {ws : List (List Char)}
    (h : Tried now word ws) : word ∈ ws := by
  induction h with
  | here => exact List.mem_cons_self
  | behind _ _ ih => exact List.mem_cons_of_mem _ ih

theorem Consults.mem {now : ClockReading} {word : List Char} {ws : List (List Char)}
    (h : Consults now word ws) : word ∈ ws := by
  cases h with
  | event _ _ htried => exact List.mem_cons_of_mem _ htried.mem
  | eventOfKind _ _ htried => exact List.mem_cons_of_mem _ (List.mem_cons_of_mem _ htried.mem)
  | eventWord _ _ htried => exact List.mem_cons_of_mem _ (List.mem_cons_of_mem _ htried.mem)
  | _ => simp

theorem Head.Consults.mem {now : ClockReading} {word : List Char} {head : Head}
    (h : head.Consults now word) : word ∈ head.left := by
  cases h with
  | block => exact List.mem_cons_self
  | event htried => exact htried.mem
  | quick => exact List.mem_singleton_self word

variable {defaults : LineDefaults} {now : ClockReading} {fault : ReadFault}

/-! ## The rest of a line -/

namespace Command

namespace EventParts

/-- The words of an event that has its time are all read: none of them is tried as a time. -/
theorem exists_read_eq_ok {slot : Slot} (hstart : slot.start.isSome = true)
    (ws : List (List Char)) : ∃ parts, EventParts.read now slot ws = .ok parts := by
  induction ws with
  | nil => exact ⟨_, rfl⟩
  | cons word ws ih =>
    obtain ⟨parts, hparts⟩ := ih
    by_cases hword : word.head? = some '@'
    · obtain ⟨name, rfl⟩ := List.head?_eq_some_iff.1 hword
      rw [read_name, hparts]
      exact ⟨_, rfl⟩
    · rw [read_word_of_isSome hword hstart, hparts]
      exact ⟨_, rfl⟩

/-- The words of an event fail to be read exactly if one that is tried as a time does. -/
theorem read_eq_error_iff {ws : List (List Char)} :
    EventParts.read now {} ws = .error fault ↔
      ∃ word, Tried now word ws ∧ Slot.read now word = .error fault := by
  -- By induction on the words, with no time found so far: a name is passed over, and a word that is
  -- read is passed over too, or is the time and ends the search.
  induction ws with
  | nil =>
    constructor
    · rintro ⟨⟩
    · rintro ⟨_, ⟨⟩, -⟩
  | cons w ws ih =>
    by_cases hw : w.head? = some '@'
    · obtain ⟨name, rfl⟩ := List.head?_eq_some_iff.1 hw
      rw [read_name, map_eq_error_iff, ih]
      constructor
      · rintro ⟨word, htried, hread⟩
        exact ⟨word, .behind (Or.inl hw) htried, hread⟩
      · rintro ⟨word, htried, hread⟩
        cases htried with
        | here hword => exact absurd hw hword
        | behind _ htried => exact ⟨word, htried, hread⟩
    · rw [read_word hw rfl, bind_eq_error_iff]
      constructor
      · rintro (hread | ⟨time, htime, h⟩)
        · exact ⟨w, .here hw, hread⟩
        · split at h
          · rename_i hempty
            obtain rfl : time = {} := Slot.isEmpty_iff.1 hempty
            obtain ⟨word, htried, hread⟩ := ih.1 (map_eq_error_iff.1 h)
            exact ⟨word, .behind (Or.inr htime) htried, hread⟩
          · rename_i hslot
            obtain ⟨parts, hparts⟩ := exists_read_eq_ok
              (Slot.isSome_start_of_read htime (by simpa using hslot)) ws
            rw [hparts] at h
            cases h
      · rintro ⟨word, htried, hread⟩
        cases htried with
        | here => exact Or.inl hread
        | behind hword htried =>
          have htime : Slot.read now w = .ok {} := hword.resolve_left hw
          refine Or.inr ⟨{}, htime, ?_⟩
          rw [if_pos Slot.isEmpty_default, map_eq_error_iff]
          exact ih.2 ⟨word, htried, hread⟩

end EventParts

/-- Once its head is known, a line fails to be read exactly if a word that is looked at as a time
does. -/
theorem ofHead_eq_error_iff {head : Head} :
    ofHead defaults now head = .error fault ↔
      ∃ word, head.Consults now word ∧ Slot.read now word = .error fault := by
  -- Blocks and quick actions look at one word, events at one after the other, the others at none.
  cases head with
  | block kind rest =>
    cases rest with
    | nil =>
      constructor
      · rintro ⟨⟩
      · rintro ⟨_, ⟨⟩, -⟩
    | cons time rest =>
      show ofBlock now kind (time :: rest) = _ ↔ _
      rw [ofBlock_cons, map_eq_error_iff]
      constructor
      · intro hread
        exact ⟨time, .block, hread⟩
      · rintro ⟨_, ⟨⟩, hread⟩
        exact hread
  | event kind rest =>
    show ofEvent now kind rest = _ ↔ _
    rw [ofEvent_eq_map, map_eq_error_iff, EventParts.read_eq_error_iff]
    refine exists_congr fun word => and_congr_left fun _ => ?_
    constructor
    · exact .event
    · rintro ⟨⟩
      assumption
  | quick action time =>
    show ofQuick now action time = _ ↔ _
    rw [ofQuick_eq_map, map_eq_error_iff]
    constructor
    · intro hread
      cases time with
      | none => cases hread
      | some word => exact ⟨word, .quick, hread⟩
    · rintro ⟨_, ⟨⟩, hread⟩
      exact hread
  | _ =>
    constructor
    · rintro ⟨⟩
    · rintro ⟨_, ⟨⟩, -⟩

end Command

/-! ## The head of a line -/

/-- A word that fails to be read starts with a digit, and so it is no keyword and no name. -/
theorem isDecimal_of_read_error {word : List Char} (hword : ∀ c ∈ word, isBlank c = false)
    (hread : Slot.read now word = .error fault) : ∀ c ∈ (lower word).head?, isDecimal c = true := by
  have htorn := Slot.read_eq_error_iff.1 hread
  rw [trim_eq_self_of_not_blank hword] at htorn
  exact fun c => htorn.isDecimal_head

theorem head?_ne_at_of_read_error {word : List Char} (hword : ∀ c ∈ word, isBlank c = false)
    (hread : Slot.read now word = .error fault) : word.head? ≠ some '@' := by
  intro hat
  obtain ⟨name, rfl⟩ := List.head?_eq_some_iff.1 hat
  exact absurd (isDecimal_of_read_error hword hread '@' rfl) (by decide)

namespace Head

variable {text first : List Char} {rest : List (List Char)}

theorem isBlank_of_mem_first (hwords : words text = first :: rest) :
    ∀ c ∈ first, isBlank c = false := by
  intro c hc
  exact not_blank_of_mem_words (hwords ▸ List.mem_cons_self) hc

/-- A length that is joined to the action `now` is always read. -/
theorem read_nowFor_ne_error (hwords : words text = first :: rest)
    (hplus : ['n', 'o', 'w', '+'] <+: lower first) :
    Slot.read now (lower first) ≠ .error fault := by
  intro hread
  obtain ⟨tail, htail⟩ := hplus
  have hhead := isDecimal_of_read_error (isBlank_of_mem_lower (isBlank_of_mem_first hwords)) hread
  rw [← htail] at hhead
  exact absurd (hhead 'n' rfl) (by decide)

theorem read_eq_error_iff (hwords : words text = first :: rest) :
    Head.read now text = .error fault ↔
      ∃ k, Keyword.ofName? (String.ofList (lower first)) = some k ∧
        k.isEverydayWord = true ∧ ∃ next, rest.head? = some next ∧ next.head? ≠ some '@' ∧
          Slot.read now next = .error fault := by
  -- Only asking whether an everyday word stands alone can fail, at the word behind it.
  have hclaims : ∀ k : Keyword, k.claims now rest = .error fault ↔ k.isEverydayWord = true ∧
      ∃ next, rest.head? = some next ∧ next.head? ≠ some '@' ∧
        Slot.read now next = .error fault := by
    intro k
    rw [Keyword.claims_eq_iff (r := .error fault) (by simp)]
    simp only [resolves_eq_error_iff]
  simp only [← hclaims]
  constructor
  · intro h
    simp only [Head.read, hwords, isSome_after?_iff] at h
    split at h
    · rename_i hplus
      have hread := resolves_eq_error_iff.1 (map_eq_error_iff.1 h)
      exact absurd hread (read_nowFor_ne_error hwords hplus)
    · split at h
      · cases h
      · split at h
        · cases h
        · rename_i k hk
          exact ⟨k, hk, map_eq_error_iff.1 h⟩
  · rintro ⟨k, hk, h⟩
    rw [read_of_keyword hwords hk, map_eq_error_iff]
    exact h

theorem read_of_claims {k : Keyword} (hwords : words text = first :: rest)
    (hk : Keyword.ofName? (String.ofList (lower first)) = some k)
    (hclaims : k.isEverydayWord = true → StandsAlone now rest.head?) :
    Head.read now text = .ok (k.head (text.drop first.length) rest) := by
  rw [read_of_keyword hwords hk, Keyword.claims_eq_ok_true_iff.2 hclaims]
  rfl

end Head

/-! ## Lines -/

section Keyword

variable {word first after : List Char} {rest : List (List Char)} {k : Keyword}

/-- A word that cannot be read and is looked at as a time behind a keyword. -/
theorem Consults.of_head (hk : Keyword.ofName? (String.ofList (lower first)) = some k)
    (hclaims : k.isEverydayWord = true → StandsAlone now rest.head?)
    (hread : Slot.read now word = .error fault) (hword : word.head? ≠ some '@')
    (h : (k.head after rest).Consults now word) : Consults now word (first :: rest) := by
  have hname := Keyword.ofName?_eq_some_iff.1 hk
  have hresolves : ¬ Resolves now word := by
    rintro ⟨slot, hslot, -⟩
    rw [hread] at hslot
    cases hslot
  unfold Keyword.head at h
  cases k with
  | block =>
    cases rest with
    | nil => cases h
    | cons second more =>
      dsimp only at h
      split at h
      · rename_i kind hsecond
        cases h
        exact .blockOfKind hname hsecond
      · rename_i hsecond
        cases h
        exact .block hname hsecond
  | blockWord kind =>
    -- The word was looked at before, to see that the keyword stands alone, so it can be read.
    cases h
    exact absurd (hclaims rfl) (not_or.2 ⟨hword, hresolves⟩)
  | event =>
    cases rest with
    | nil =>
      cases h with
      | event htried => cases htried
    | cons second more =>
      dsimp only at h
      split at h
      · rename_i kind hsecond
        cases h with
        | event htried => exact .eventOfKind hname hsecond htried
      · rename_i hsecond
        cases h with
        | event htried => exact .event hname hsecond htried
  | eventWord kind =>
    cases h with
    | event htried =>
      have hmem := Keyword.exists_eventWord_iff.1 ⟨kind, hk⟩
      cases htried with
      | here => exact absurd (hclaims rfl) (not_or.2 ⟨hword, hresolves⟩)
      | behind hw htried =>
        -- The word behind the keyword is passed over, so it is a name and not the time.
        rcases hclaims rfl with hat | htime
        · exact .eventWord hmem hat htried
        · exact .eventWord hmem (hw.resolve_right htime.not_read_empty) htried
  | quick action =>
    cases action with
    | now =>
      cases rest with
      | nil => cases h
      | cons second more =>
        cases h
        exact .now (List.mem_singleton.1 hname)
    | _ => cases h
  | _ => cases h

/-- A word is looked at to see whether an everyday word stands alone, or for the keyword itself. -/
theorem Consults.everyday_or_head (h : Consults now word (first :: rest)) :
    (∃ k, Keyword.ofName? (String.ofList (lower first)) = some k ∧ k.isEverydayWord = true ∧
      rest.head? = some word ∧ word.head? ≠ some '@') ∨
    ∃ k, Keyword.ofName? (String.ofList (lower first)) = some k ∧
      (k.isEverydayWord = true → StandsAlone now rest.head?) ∧
      ∀ after, (k.head after rest).Consults now word := by
  cases h with
  | block hfirst hword =>
    refine Or.inr ⟨.block, Keyword.ofName?_eq_some_iff.2 hfirst, nofun, fun after => ?_⟩
    simp only [Keyword.head, hword]
    exact .block
  | blockOfKind hfirst hsecond =>
    refine Or.inr ⟨.block, Keyword.ofName?_eq_some_iff.2 hfirst, nofun, fun after => ?_⟩
    simp only [Keyword.head, hsecond]
    exact .block
  | event hfirst hsecond htried =>
    refine Or.inr ⟨.event, Keyword.ofName?_eq_some_iff.2 hfirst, nofun, fun after => ?_⟩
    simp only [Keyword.head, hsecond]
    exact .event htried
  | eventOfKind hfirst hsecond htried =>
    refine Or.inr ⟨.event, Keyword.ofName?_eq_some_iff.2 hfirst, nofun, fun after => ?_⟩
    simp only [Keyword.head, hsecond]
    exact .event htried
  | everydayWord hfirst hword =>
    obtain ⟨k, hk, heveryday⟩ := Keyword.exists_everydayWord_iff.2 hfirst
    exact Or.inl ⟨k, hk, heveryday, rfl, hword⟩
  | eventWord hfirst hname htried =>
    obtain ⟨kind, hk⟩ := Keyword.exists_eventWord_iff.2 hfirst
    exact Or.inr ⟨_, hk, fun _ => Or.inl hname,
      fun after => .event (.behind (Or.inl hname) htried)⟩
  | now hfirst =>
    exact Or.inr ⟨.quick .now, Keyword.ofName?_eq_some_iff.2 (List.mem_singleton.2 hfirst), nofun,
      fun after => .quick⟩

end Keyword

namespace Command

/-- A line fails to be read exactly if a word that is looked at as a time does. -/
theorem read_eq_error_iff {line : String} :
    Command.read defaults now line = .error fault ↔
      ∃ word, Consults now word (words (trim line.toList)) ∧ Slot.read now word = .error fault := by
  by_cases hblank : trim line.toList = []
  · rw [read_of_blank hblank, hblank]
    constructor
    · rintro ⟨⟩
    · rintro ⟨word, h, -⟩
      cases h
  · obtain ⟨first, rest, hwords⟩ := exists_words_trim hblank
    rw [read_eq_bind hblank, bind_eq_error_iff, hwords]
    -- A word is looked at either to find the head of the line or for the rule that the head chose.
    constructor
    · rintro (h | ⟨head, hhead, h⟩)
      · obtain ⟨k, hk, heveryday, next, hnext, hat, hread⟩ := (Head.read_eq_error_iff hwords).1 h
        obtain ⟨more, rfl⟩ := List.head?_eq_some_iff.1 hnext
        have hmem := Keyword.exists_everydayWord_iff.1 ⟨k, hk, heveryday⟩
        exact ⟨next, .everydayWord hmem hat, hread⟩
      · obtain ⟨word, hcons, hread⟩ := ofHead_eq_error_iff.1 h
        cases Head.reads_of_read hwords hhead with
        | nowFor hplus htime =>
          cases hcons
          exact absurd hread (Head.read_nowFor_ne_error hwords hplus)
        | slash hslash => cases hcons
        | keyword hk hclaims =>
          have hmem : word ∈ words (trim line.toList) :=
            hwords ▸ List.mem_cons_of_mem first (Keyword.left_head_subset _ _ _ hcons.mem)
          have hword : word.head? ≠ some '@' :=
            head?_ne_at_of_read_error (fun c => not_blank_of_mem_words hmem) hread
          exact ⟨word, .of_head hk hclaims hread hword hcons, hread⟩
        | plain => cases hcons
    · rintro ⟨word, h, hread⟩
      rcases h.everyday_or_head with ⟨k, hk, heveryday, hnext, hat⟩ | ⟨k, hk, hclaims, hcons⟩
      · exact Or.inl ((Head.read_eq_error_iff hwords).2 ⟨k, hk, heveryday, word, hnext, hat, hread⟩)
      · exact Or.inr ⟨_, Head.read_of_claims hwords hk hclaims,
          ofHead_eq_error_iff.2 ⟨word, hcons _, hread⟩⟩

/-- A line fails to be read exactly if a word that is looked at as a time is a torn range. -/
theorem read_eq_error_iff_isTorn {line : String} :
    Command.read defaults now line = .error fault ↔
      ∃ word, Consults now word (words (trim line.toList)) ∧ IsTorn (lower word) := by
  rw [read_eq_error_iff]
  refine exists_congr fun word => and_congr_right fun hcons => ?_
  rw [Slot.read_eq_error_iff,
    trim_eq_self_of_not_blank fun c => not_blank_of_mem_words hcons.mem]

/-- Opening a batch fails exactly at its first command that fails to be read. -/
theorem expand_eq_error_iff {c : Command} :
    Command.expand defaults now c = .error fault ↔ c.kind = .batch ∧
      ∃ before piece after, c.notes.commands = before ++ piece :: after ∧
        (∀ other ∈ before, ∃ d, Command.read defaults now other = .ok d) ∧
        Command.read defaults now piece = .error fault := by
  unfold Command.expand
  split
  · rename_i hkind
    rw [mapM_eq_error_iff]
    exact ⟨fun h => ⟨hkind, h⟩, And.right⟩
  · rename_i hkind
    constructor
    · rintro ⟨⟩
    · rintro ⟨h, -⟩
      exact absurd h hkind

theorem cutAtByte?_first_word (text : List Char) :
    cutAtByte? (String.ofList ((words (trim text)).headD [])).utf8ByteSize (trim text) =
      some ((words (trim text)).headD [],
        (trim text).drop ((words (trim text)).headD []).length) := by
  rw [cutAtByte?_eq_some_iff]
  cases hwords : words (trim text) with
  | nil => exact ⟨rfl, rfl⟩
  | cons first rest =>
    exact ⟨(eq_append_of_words_eq_cons (fun _ => isBlank_of_mem_head?_trim) hwords).1, rfl⟩

/-- A line whose digits are all of ASCII is a command. -/
theorem exists_read_of_isDigit {line : String}
    (hline : ∀ c ∈ line.toList, isDecimal c = true → c.isDigit = true) :
    ∃ c, Command.read defaults now line = .ok c := by
  cases hread : Command.read defaults now line with
  | ok c => exact ⟨c, rfl⟩
  | error fault =>
    obtain ⟨word, hcons, hword⟩ := read_eq_error_iff.1 hread
    obtain ⟨c, hc, hdec, hdigit⟩ := (Slot.read_eq_error_iff.1 hword).exists_not_isDigit
    have hmem : c ∈ word := trim_subset word (mem_of_isDecimal_of_mem_lower hc hdec)
    have hline' : c ∈ line.toList := trim_subset _ (mem_of_mem_words hcons.mem hmem)
    rw [hline c hline' hdec] at hdigit
    cases hdigit

/-- Reading fails exactly at a torn compact range: a time expression that is one, a line that has
one in the place of a time, a batch with such a line. The text behind the first word of a line,
which is found by counting bytes, is always cut off between two characters. -/
theorem fails_iff_torn (defaults : LineDefaults) (now : ClockReading) (expression text : List Char)
    (line : String) (c : Command) (fault : ReadFault) :
    (Slot.read now expression = .error fault ↔ IsTorn (lower (trim expression))) ∧
    (Command.read defaults now line = .error fault ↔
      ∃ word, Consults now word (words (trim line.toList)) ∧ IsTorn (lower word)) ∧
    (Command.expand defaults now c = .error fault ↔ c.kind = .batch ∧
      ∃ before piece after, c.notes.commands = before ++ piece :: after ∧
        (∀ other ∈ before, ∃ d, Command.read defaults now other = .ok d) ∧
        ∃ word, Consults now word (words (trim piece.toList)) ∧ IsTorn (lower word)) ∧
    cutAtByte? (String.ofList ((words (trim text)).headD [])).utf8ByteSize (trim text) =
      some ((words (trim text)).headD [],
        (trim text).drop ((words (trim text)).headD []).length) := by
  refine ⟨Slot.read_eq_error_iff, read_eq_error_iff_isTorn, ?_, cutAtByte?_first_word text⟩
  simp only [expand_eq_error_iff, read_eq_error_iff_isTorn]

/-- The first group has three digits of two bytes each: its second byte, behind the zero that fills
it up to four, is inside the first of them. -/
theorem read_arabic_digits :
    Command.read {} ⟨8, 10, 0⟩ "blk ٩٣٠-1000" = .error .cutInsideCharacter := by
  decide

end Command

end Shorthand
