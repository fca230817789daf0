import Shorthand.Proofs.Command.Dispatch
import Shorthand.Proofs.Command.Fault

/-!
Different words for one command. `Command.read_of_synonym` says which first words can stand for each
other, whatever follows them, and when an everyday word says by itself what a keyword says in front
of it.
-/

namespace Shorthand

open Text

/-! ## Words for the same -/

/-- Keywords that can stand for each other in front of any words. -/
def synonyms : List (List String) :=
  [["blk", "block"], ["evt", "event"], ["rtn", "routine"], ["tsk", "task"], ["tmpl", "template"]]

/-- The keywords of a kind, and the everyday words that ask for the same kind where they stand
alone. -/
def everydayWords : List (List String × List String) :=
  [(["blk", "block"], ["deep", "admin", "break", "exercise", "personal"]),
    (["evt", "event"], ["meeting", "standup", "call", "review"])]

/-- The line begins with these names, in letters of either case, and goes on with `rest`; any blanks
can stand between its words and around them. -/
def Says (names : List String) (rest : List (List Char)) (line : String) : Prop :=
  ∃ ws, ws.map (fun w => String.ofList (lower w)) = names ∧ words line.toList = ws ++ rest

section Says

variable {name second : String} {rest : List (List Char)} {line : String}

theorem Says.one (h : Says [name] rest line) :
    ∃ first, String.ofList (lower first) = name ∧ words (trim line.toList) = first :: rest := by
  obtain ⟨ws, hnames, hwords⟩ := h
  obtain ⟨first, rfl, hname⟩ := List.map_eq_singleton_iff.1 hnames
  exact ⟨first, hname, by rw [words_trim, hwords, List.singleton_append]⟩

theorem Says.two (h : Says [name, second] rest line) :
    ∃ word, String.ofList (lower word) = second ∧ Says [name] (word :: rest) line := by
  obtain ⟨ws, hnames, hwords⟩ := h
  obtain ⟨first, more, rfl, hname, hmore⟩ := List.map_eq_cons_iff.1 hnames
  obtain ⟨word, rfl, hsecond⟩ := List.map_eq_singleton_iff.1 hmore
  exact ⟨word, hsecond, [first], by rw [List.map_singleton, hname], hwords⟩

end Says

/-! ## Heads -/

namespace Keyword

variable {rest : List (List Char)} {word : List Char}

theorem head_block_cons {kind : BlockKind}
    (hword : ofName? (String.ofList (lower word)) = some (.blockWord kind)) (after : List Char) :
    Keyword.block.head after (word :: rest) = .block kind rest := by
  have hkind : BlockKind.ofWord? word = some kind := by
    have hname := ofName?_eq_some_iff.1 hword
    rw [BlockKind.ofWord?]
    cases kind <;> · rw [List.mem_singleton.1 hname]; rfl
  simp only [head, hkind]

theorem ofName?_eventWord_iff {kind : EventKind} :
    ofName? (String.ofList (lower word)) = some (.eventWord kind) ↔
      EventKind.ofWord? word = some kind := by
  rw [ofName?_eq_some_iff, EventKind.ofWord?]
  constructor
  · intro h
    cases kind <;> · rw [List.mem_singleton.1 h]; rfl
  · intro h
    unfold EventKind.ofName? at h
    split at h <;> cases h <;> simp_all [names]

theorem head_event_cons {kind : EventKind}
    (hword : ofName? (String.ofList (lower word)) = some (.eventWord kind)) (after : List Char) :
    Keyword.event.head after (word :: rest) = .event kind rest := by
  simp only [head, ofName?_eventWord_iff.1 hword]

end Keyword

namespace Command

variable {defaults : LineDefaults} {now : ClockReading} {name : String}
  {rest : List (List Char)} {line : String}

/-- What a line is whose first word is a keyword that claims it, as long as it is no batch. -/
theorem read_of_first_word {k : Keyword} (hline : Says [name] rest line)
    (hk : Keyword.ofName? name = some k) (hbatch : k ≠ .batch)
    (hclaims : k.isEverydayWord = true → StandsAlone now rest.head?) :
    Command.read defaults now line = ofHead defaults now (k.head [] rest) := by
  obtain ⟨first, rfl, hwords⟩ := hline.one
  have hblank : trim line.toList ≠ [] := ne_nil_of_words_eq_cons hwords
  rw [read_eq_bind hblank, Head.read_of_claims hwords hk hclaims,
    Keyword.head_eq_head hbatch _ [] rest]
  rfl

theorem kind_of_first_word {c : Command} {kind : CommandKind} (hline : Says [name] rest line)
    (hread : Command.read defaults now line = .ok c) (hkind : kind ≠ .task) :
    c.kind = kind ↔ Claims now name.toList rest.head? kind := by
  obtain ⟨first, rfl, hwords⟩ := hline.one
  rw [String.toList_ofList]
  exact kind_eq_iff_claims hwords hread hkind

/-- Two names of one keyword that is no everyday word. -/
theorem read_of_names {k : Keyword} {other : String} {line' : String}
    (hk : k.isEverydayWord = false) (hbatch : k ≠ .batch) (hname : name ∈ k.names)
    (hother : other ∈ k.names) (hline : Says [name] rest line) (hline' : Says [other] rest line') :
    Command.read defaults now line = Command.read defaults now line' := by
  have hclaims : k.isEverydayWord = true → StandsAlone now rest.head? := by
    intro heveryday
    rw [hk] at heveryday
    cases heveryday
  rw [read_of_first_word hline (Keyword.ofName?_eq_some_iff.2 hname) hbatch hclaims,
    read_of_first_word hline' (Keyword.ofName?_eq_some_iff.2 hother) hbatch hclaims]

/-- Keywords that can stand for each other are the names of one keyword. -/
theorem exists_keyword_of_synonyms {names : List String} (h : names ∈ synonyms) :
    ∃ k : Keyword, k.names = names ∧ k.isEverydayWord = false ∧ k ≠ .batch := by
  simp only [synonyms, List.mem_cons, List.not_mem_nil, or_false] at h
  rcases h with rfl | rfl | rfl | rfl | rfl
  · exact ⟨.block, rfl, rfl, nofun⟩
  · exact ⟨.event, rfl, rfl, nofun⟩
  · exact ⟨.routine, rfl, rfl, nofun⟩
  · exact ⟨.task, rfl, rfl, nofun⟩
  · exact ⟨.template, rfl, rfl, nofun⟩

/-! ## Everyday words -/

section Everyday

variable {keyword line' : String} (hline : Says [name] rest line)
  (hline' : Says [keyword, name] rest line')

include hline hline'

/-- The word behind the keyword is the kind of the block, which the same word says by itself. -/
theorem read_of_blockWord (hkeyword : keyword ∈ Keyword.names .block)
    (hname : name ∈ ["deep", "admin", "break", "exercise", "personal"])
    (halone : StandsAlone now rest.head?) :
    Command.read defaults now line = Command.read defaults now line' := by
  obtain ⟨kind, hk⟩ := Keyword.exists_blockWord_iff.2 hname
  obtain ⟨word, rfl, hboth⟩ := hline'.two
  rw [read_of_first_word hline hk nofun fun _ => halone,
    read_of_first_word hboth (Keyword.ofName?_eq_some_iff.2 hkeyword) nofun nofun,
    Keyword.head_block_cons hk]
  rfl

/-- In front of a kind of event that stands alone the keyword can be left out. -/
theorem read_of_eventWord (hkeyword : keyword ∈ Keyword.names .event)
    (hname : name ∈ ["meeting", "standup", "call", "review"])
    (halone : StandsAlone now rest.head?) :
    Command.read defaults now line = Command.read defaults now line' := by
  obtain ⟨kind, hk⟩ := Keyword.exists_eventWord_iff.2 hname
  obtain ⟨word, rfl, hboth⟩ := hline'.two
  rw [read_of_first_word hline hk nofun fun _ => halone,
    read_of_first_word hboth (Keyword.ofName?_eq_some_iff.2 hkeyword) nofun nofun,
    Keyword.head_event_cons hk]
  rfl

/-- A kind that is claimed by its keywords, and by everyday words only where they stand alone. -/
theorem standsAlone_of_read {kind : CommandKind} {names everyday : List String} {c : Command}
    (hkind : kind ≠ .task) (hkeyword : keyword ∈ names) (hname : name ∈ everyday)
    (hapart : ∀ name ∈ everyday, name ∉ names)
    (hclaims : ∀ first next, Claims now first next kind ↔
      String.ofList first ∈ names ∨ String.ofList first ∈ everyday ∧ StandsAlone now next)
    (hread : Command.read defaults now line = .ok c)
    (hread' : Command.read defaults now line' = .ok c) : StandsAlone now rest.head? := by
  obtain ⟨word, -, hfirst⟩ := hline'.two
  have hclaimed : c.kind = kind := by
    rw [kind_of_first_word hfirst hread' hkind, hclaims, String.ofList_toList]
    exact Or.inl hkeyword
  rw [kind_of_first_word hline hread hkind, hclaims, String.ofList_toList] at hclaimed
  exact (hclaimed.resolve_left (hapart name hname)).2

end Everyday

/-- Synonyms make the same command of any words that follow. An everyday word makes by itself the
command that it makes behind a keyword of its kind where it stands alone, and nowhere else. -/
theorem read_of_synonym (defaults : LineDefaults) (now : ClockReading) (rest : List (List Char))
    (line line' : String) :
    (∀ names ∈ synonyms, ∀ a ∈ names, ∀ b ∈ names, Says [a] rest line → Says [b] rest line' →
      Command.read defaults now line = Command.read defaults now line') ∧
    ∀ family ∈ everydayWords, ∀ keyword ∈ family.1, ∀ name ∈ family.2,
      Says [name] rest line → Says [keyword, name] rest line' →
      (StandsAlone now rest.head? →
        Command.read defaults now line = Command.read defaults now line') ∧
      ∀ c, Command.read defaults now line = .ok c → Command.read defaults now line' = .ok c →
        StandsAlone now rest.head? := by
  constructor
  · intro names hnames a ha b hb hline hline'
    obtain ⟨k, rfl, hk, hbatch⟩ := exists_keyword_of_synonyms hnames
    exact read_of_names hk hbatch ha hb hline hline'
  · intro family hfamily keyword hkeyword name hname hline hline'
    -- Behind the keyword the command is of the keyword's kind; the everyday word alone is of that
    -- kind only where it stands alone.
    simp only [everydayWords, List.mem_cons, List.not_mem_nil, or_false] at hfamily
    rcases hfamily with rfl | rfl
    · have hblock : CommandKind.block ≠ .task := nofun
      refine ⟨read_of_blockWord hline hline' hkeyword hname, fun c => ?_⟩
      exact standsAlone_of_read hline hline' hblock hkeyword hname (by decide) fun _ _ => Iff.rfl
    · have hevent : CommandKind.event ≠ .task := nofun
      refine ⟨read_of_eventWord hline hline' hkeyword hname, fun c => ?_⟩
      exact standsAlone_of_read hline hline' hevent hkeyword hname (by decide) fun _ _ => Iff.rfl

theorem read_of_synonym_deep :
    Says ["tsk"] ["read".toList, "30".toList] "tsk read 30" ∧
      Says ["task"] ["read".toList, "30".toList] "  Task  read 30" ∧
      Command.read {} ⟨8, 10, 0⟩ "tsk read 30" = Command.read {} ⟨8, 10, 0⟩ "  Task  read 30" ∧
      Says ["deep"] ["9-11".toList] "Deep 9-11" ∧
      Says ["blk", "deep"] ["9-11".toList] "blk DEEP 9-11" ∧
      StandsAlone ⟨8, 10, 0⟩ (some "9-11".toList) ∧
      Command.read {} ⟨8, 10, 0⟩ "Deep 9-11" = Command.read {} ⟨8, 10, 0⟩ "blk DEEP 9-11" := by
  have htsk : Says ["tsk"] ["read".toList, "30".toList] "tsk read 30" :=
    ⟨["tsk".toList], by decide, by decide⟩
  have htask : Says ["task"] ["read".toList, "30".toList] "  Task  read 30" :=
    ⟨["Task".toList], by decide, by decide⟩
  have hdeep : Says ["deep"] ["9-11".toList] "Deep 9-11" := ⟨["Deep".toList], by decide, by decide⟩
  have hblk : Says ["blk", "deep"] ["9-11".toList] "blk DEEP 9-11" :=
    ⟨["blk".toList, "DEEP".toList], by decide, by decide⟩
  have htime : StandsAlone ⟨8, 10, 0⟩ (some "9-11".toList) :=
    Or.inr (resolves_eq_ok_true_iff.1 (by decide))
  have hsame := (read_of_synonym {} ⟨8, 10, 0⟩ ["read".toList, "30".toList] "tsk read 30"
    "  Task  read 30").1 ["tsk", "task"] (by decide) "tsk" (by decide) "task" (by decide) htsk htask
  have halone := (read_of_synonym {} ⟨8, 10, 0⟩ ["9-11".toList] "Deep 9-11" "blk DEEP 9-11").2
    (["blk", "block"], ["deep", "admin", "break", "exercise", "personal"]) (by decide)
    "blk" (by decide) "deep" (by decide) hdeep hblk
  exact ⟨htsk, htask, hsame, hdeep, hblk, htime, halone.1 htime⟩

end Command

end Shorthand
