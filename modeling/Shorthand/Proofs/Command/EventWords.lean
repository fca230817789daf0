import Shorthand.Proofs.Command.Synonym
import Shorthand.Proofs.Command.Time

/-!
How an event sorts its words. `Command.sorted_of_read` says that the people are the words that start
with `@`, that the first time among the others is the time, and that the rest is the title; so the
people can be written anywhere among the words of an event.
-/

namespace Shorthand

open Text

/-! ## People and other words -/

def others (ws : List (List Char)) : List (List Char) := ws.filter (·.head? != some '@')

/-- The people of some words: what follows the `@`, where anything does. -/
def mentioned (ws : List (List Char)) : List (List Char) :=
  ((ws.filter (·.head? == some '@')).map List.tail).filter (!·.isEmpty)

theorem mem_others_iff {ws : List (List Char)} {w : List Char} :
    w ∈ others ws ↔ w ∈ ws ∧ w.head? ≠ some '@' := by
  simp [others]

theorem others_cons_name (name : List Char) (ws : List (List Char)) :
    others (('@' :: name) :: ws) = others ws := rfl

theorem others_cons_word {word : List Char} (hword : word.head? ≠ some '@')
    (ws : List (List Char)) : others (word :: ws) = word :: others ws := by
  rw [others, List.filter_cons_of_pos (by simpa using hword), others]

theorem mentioned_cons_name (name : List Char) (ws : List (List Char)) :
    mentioned (('@' :: name) :: ws) =
      if name.isEmpty then mentioned ws else name :: mentioned ws := by
  cases name <;> rfl

theorem mentioned_cons_word {word : List Char} (hword : word.head? ≠ some '@')
    (ws : List (List Char)) : mentioned (word :: ws) = mentioned ws := by
  rw [mentioned, List.filter_cons_of_neg (by simpa using hword), mentioned]

/-- What some words that are no names become: the slot of the first time among them, and the others
as a title. -/
inductive Sorted (now : ClockReading) (ws : List (List Char)) : Slot → List (List Char) → Prop
  | noTime (hnone : ∀ w ∈ ws, ¬ Resolves now w) : Sorted now ws {} ws
  | time {before after : List (List Char)} {word : List Char} {slot : Slot}
      (hws : ws = before ++ word :: after) (hbefore : ∀ w ∈ before, ¬ Resolves now w)
      (hread : Slot.read now word = .ok slot) (hslot : slot.isEmpty = false) :
      Sorted now ws slot (before ++ after)

namespace Sorted

variable {now : ClockReading} {ws title : List (List Char)} {slot : Slot} {word : List Char}

theorem cons (hword : ¬ Resolves now word) (h : Sorted now ws slot title) :
    Sorted now (word :: ws) slot (word :: title) := by
  cases h with
  | noTime hnone => exact .noTime (List.forall_mem_cons.2 ⟨hword, hnone⟩)
  | @time before after found slot hws hbefore hread hslot =>
    have htime : Sorted now (word :: ws) slot ((word :: before) ++ after) :=
      .time (by rw [hws]; rfl) (List.forall_mem_cons.2 ⟨hword, hbefore⟩) hread hslot
    exact htime

end Sorted

/-! ## Sorting the words of an event -/

namespace Command.EventParts

variable {now : ClockReading}

def withPeople (people : List (List Char)) (parts : EventParts) : EventParts :=
  { parts with attendees := people }

/-- The people are put aside; what is left is sorted as if they had not been written. -/
theorem read_eq_map_others (slot : Slot) (ws : List (List Char)) :
    EventParts.read now slot ws =
      (EventParts.read now slot (others ws)).map (withPeople (mentioned ws)) := by
  -- By induction on the words, for every slot, since a time that is found is handed on.
  induction ws generalizing slot with
  | nil => rfl
  | cons word ws ih =>
    by_cases hat : word.head? = some '@'
    · obtain ⟨name, rfl⟩ := List.head?_eq_some_iff.1 hat
      rw [read_name, ih, others_cons_name, mentioned_cons_name]
      cases EventParts.read now slot (others ws) with
      | error fault => rfl
      | ok parts => cases name <;> rfl
    · rw [others_cons_word hat, mentioned_cons_word hat]
      have htitled : (EventParts.read now slot ws).map (titled word) =
          ((EventParts.read now slot (others ws)).map (titled word)).map
            (withPeople (mentioned ws)) := by
        rw [ih]
        cases EventParts.read now slot (others ws) <;> rfl
      cases hstart : slot.start with
      | some start =>
        have hsome : slot.start.isSome = true := by rw [hstart]; rfl
        rw [read_word_of_isSome hat hsome, read_word_of_isSome hat hsome, htitled]
      | none =>
        rw [read_word hat hstart, read_word hat hstart]
        cases Slot.read now word with
        | error fault => rfl
        | ok time =>
          by_cases hempty : time.isEmpty = true
          · simp only [bind, Except.bind, if_pos hempty, htitled]
          · simp only [bind, Except.bind, if_neg hempty, ih]

/-- Behind the time of an event every word that is no name belongs to the title. -/
theorem read_of_isSome {slot : Slot} (hstart : slot.start.isSome = true) {ws : List (List Char)}
    (hws : ∀ w ∈ ws, w.head? ≠ some '@') :
    EventParts.read now slot ws = .ok { slot, title := ws } := by
  induction ws with
  | nil => rfl
  | cons word ws ih =>
    obtain ⟨hword, htail⟩ := List.forall_mem_cons.1 hws
    rw [read_word_of_isSome hword hstart, ih htail]
    rfl

/-- Words that are read as those of an event are sorted as `Sorted` says. -/
theorem sorted_of_eq_ok {ws : List (List Char)} {parts : EventParts}
    (hws : ∀ w ∈ ws, w.head? ≠ some '@') (h : EventParts.read now {} ws = .ok parts) :
    Sorted now ws parts.slot parts.title := by
  -- By induction on the words, none of which has been the time so far.
  induction ws generalizing parts with
  | nil =>
    cases h
    exact .noTime nofun
  | cons word ws ih =>
    obtain ⟨hword, htail⟩ := List.forall_mem_cons.1 hws
    rw [read_word hword rfl] at h
    obtain ⟨time, htime, h⟩ := bind_eq_ok_iff.1 h
    split at h
    · rename_i hempty
      obtain ⟨more, hmore, rfl⟩ := map_eq_ok_iff.1 h
      refine (ih htail hmore).cons fun hresolves => ?_
      obtain rfl : time = {} := Slot.isEmpty_iff.1 hempty
      exact hresolves.not_read_empty htime
    · rename_i hslot
      have hslot : time.isEmpty = false := by simpa using hslot
      rw [read_of_isSome (Slot.isSome_start_of_read htime hslot) htail] at h
      obtain rfl := Except.ok.inj h
      exact .time (show _ = [] ++ _ from rfl) nofun htime hslot

end Command.EventParts

/-! ## The words behind the keyword -/

/-- The words at the front of a line that ask for an event of this kind, in front of the words that
are sorted. -/
inductive EventFront (now : ClockReading) :
    List (List Char) → EventKind → List (List Char) → Prop
  | event {first : List Char} {rest : List (List Char)}
      (hfirst : String.ofList (lower first) ∈ ["evt", "event"])
      (hnext : ∀ word ∈ rest.head?, EventKind.ofWord? word = none) :
      EventFront now [first] .meeting rest
  | eventOfKind {first word : List Char} {kind : EventKind} {rest : List (List Char)}
      (hfirst : String.ofList (lower first) ∈ ["evt", "event"])
      (hword : EventKind.ofWord? word = some kind) : EventFront now [first, word] kind rest
  | everydayWord {first : List Char} {kind : EventKind} {rest : List (List Char)}
      (hfirst : EventKind.ofWord? first = some kind) (halone : StandsAlone now rest.head?) :
      EventFront now [first] kind rest

namespace Command

variable {defaults : LineDefaults} {now : ClockReading} {line : String} {c : Command}

/-- A line with the front of an event is read as that event, of the words behind the front. -/
theorem read_of_eventFront {front rest : List (List Char)} {kind : EventKind}
    (h : EventFront now front kind rest) (hwords : words line.toList = front ++ rest) :
    Command.read defaults now line = ofEvent now kind rest := by
  have hevent : Keyword.event ≠ .batch := by simp
  have heveryday : ¬ Keyword.event.isEverydayWord = true := by decide
  cases h with
  | @event first _ hfirst hnext =>
    rw [read_of_first_word (k := .event) ⟨[first], rfl, hwords⟩
      (Keyword.ofName?_eq_some_iff.2 hfirst) hevent fun h => absurd h heveryday]
    cases rest with
    | nil => rfl
    | cons word more => simp only [Keyword.head, hnext word rfl]; rfl
  | @eventOfKind first word _ _ hfirst hword =>
    rw [read_of_first_word (k := .event) ⟨[first], rfl, hwords⟩
      (Keyword.ofName?_eq_some_iff.2 hfirst) hevent fun h => absurd h heveryday]
    simp only [Keyword.head, List.append_eq, List.nil_append, hword]
    rfl
  | @everydayWord first _ _ hfirst halone =>
    rw [read_of_first_word ⟨[first], rfl, hwords⟩ (Keyword.ofName?_eventWord_iff.2 hfirst)
      (by simp) fun _ => halone]
    rfl

/-- Every line that is read as an event has the front of one. -/
theorem exists_eventFront (hread : Command.read defaults now line = .ok c)
    (hkind : c.kind = .event) :
    ∃ front kind rest, words line.toList = front ++ rest ∧ EventFront now front kind rest := by
  have hblank : trim line.toList ≠ [] := by
    intro hblank
    rw [read_of_blank hblank] at hread
    obtain rfl := Except.ok.inj hread
    cases hkind
  obtain ⟨first, rest, hwords⟩ := exists_words_trim hblank
  have hclaims := (kind_eq_iff_claims hwords hread (by decide)).1 hkind
  rw [words_trim] at hwords
  rcases hclaims with hfirst | ⟨hfirst, halone⟩
  · cases hnext : rest.head?.bind EventKind.ofWord? with
    | none =>
      refine ⟨[first], .meeting, rest, hwords, .event hfirst fun word hword => ?_⟩
      rw [Option.mem_def.1 hword] at hnext
      exact hnext
    | some kind =>
      obtain ⟨word, hword, hof⟩ := Option.bind_eq_some_iff.1 hnext
      obtain ⟨more, rfl⟩ := List.head?_eq_some_iff.1 hword
      exact ⟨[first, word], kind, more, hwords, .eventOfKind hfirst hof⟩
  · obtain ⟨kind, hk⟩ := Keyword.exists_eventWord_iff.2 hfirst
    exact ⟨[first], kind, rest, hwords, .everydayWord (Keyword.ofName?_eventWord_iff.1 hk) halone⟩

def titleOf (ws : List (List Char)) : Option String :=
  if ws.isEmpty then none else some (String.ofList (spaced ws))

/-- The words of an event behind its keyword are sorted: the people are those that start with `@`,
the time is the first time among the others, and the title is the rest. A line of the same front
whose words differ in the people alone is the same event with other people. -/
theorem sorted_of_read (hread : Command.read defaults now line = .ok c) (hkind : c.kind = .event) :
    ∃ front kind rest, words line.toList = front ++ rest ∧ EventFront now front kind rest ∧
      c.subtype = some kind.name ∧
      c.attendees = (mentioned rest).map String.ofList ∧
      (∃ title, Sorted now (others rest) c.slot title ∧ c.notes.title = titleOf title) ∧
      ∀ (line' : String) (rest' : List (List Char)), words line'.toList = front ++ rest' →
        EventFront now front kind rest' → others rest' = others rest →
        ∃ c', Command.read defaults now line' = .ok c' ∧ c' =
          { c with attendees := (mentioned rest').map String.ofList, preview := c'.preview } := by
  obtain ⟨front, kind, rest, hwords, hfront⟩ := exists_eventFront hread hkind
  rw [read_of_eventFront hfront hwords, ofEvent_eq_map, EventParts.read_eq_map_others] at hread
  obtain ⟨parts, hparts, rfl⟩ := map_eq_ok_iff.1 hread
  obtain ⟨sorted, hsorted, rfl⟩ := map_eq_ok_iff.1 hparts
  have htime : Sorted now (others rest) sorted.slot sorted.title :=
    EventParts.sorted_of_eq_ok (fun w hw => (mem_others_iff.1 hw).2) hsorted
  refine ⟨front, kind, rest, hwords, hfront, rfl, rfl, ⟨sorted.title, htime, rfl⟩,
    fun line' rest' hwords' hfront' hrest' => ?_⟩
  rw [read_of_eventFront hfront' hwords', ofEvent_eq_map, EventParts.read_eq_map_others, hrest',
    hsorted]
  exact ⟨_, rfl, rfl⟩

theorem sorted_of_read_design : ∃ c, Command.read {} ⟨8, 10, 0⟩ "evt design 10-11 notes" = .ok c ∧
    c.kind = .event ∧ c.notes.title = some "design notes" ∧
    ∃ c', Command.read {} ⟨8, 10, 0⟩ "evt design @sam 10-11 notes" = .ok c' ∧
      c' = { c with attendees := ["sam"], preview := c'.preview } := by
  have hread : Command.read {} ⟨8, 10, 0⟩ "evt design 10-11 notes" = .ok
      { kind := .event, subtype := some "meeting"
        slot := { start := some ⟨10, 0⟩, finish := some ⟨11, 0⟩, length := some 60 }
        notes := { title := some "design notes" }, isValid := true
        preview := some "meeting: design notes at 10:00 to 11:00" } := by
    decide
  obtain ⟨front, kind, rest, hwords, hfront, -, -, -, hpeople⟩ := sorted_of_read hread rfl
  have hline : words "evt design 10-11 notes".toList =
      ["evt".toList, "design".toList, "10-11".toList, "notes".toList] := by
    decide
  rw [hline] at hwords
  refine ⟨_, hread, rfl, rfl, ?_⟩
  cases hfront with
  | event hfirst =>
    obtain ⟨rfl, rfl⟩ := List.cons.inj hwords
    exact hpeople "evt design @sam 10-11 notes"
      ["design".toList, "@sam".toList, "10-11".toList, "notes".toList] (by decide)
      (.event hfirst (by rintro _ ⟨⟩; decide)) (by decide)
  | eventOfKind _ hword =>
    obtain ⟨-, hwords⟩ := List.cons.inj hwords
    obtain ⟨rfl, -⟩ := List.cons.inj hwords
    cases hword
  | everydayWord hfirst =>
    obtain ⟨rfl, -⟩ := List.cons.inj hwords
    cases hfirst

/-- The word behind the keyword is the kind of the event if it names one. So a word that belongs to
the title with somebody in front of it is the kind, and no title, without them. -/
theorem read_standup_behind_name :
    ∃ c c', Command.read {} ⟨8, 10, 0⟩ "evt @sam standup 10-11" = .ok c ∧ c.kind = .event ∧
      words "evt @sam standup 10-11".toList =
        ["evt".toList] ++ ["@sam".toList, "standup".toList, "10-11".toList] ∧
      EventFront ⟨8, 10, 0⟩ ["evt".toList] .meeting
        ["@sam".toList, "standup".toList, "10-11".toList] ∧
      Command.read {} ⟨8, 10, 0⟩ "evt standup 10-11" = .ok c' ∧ c'.kind = .event ∧
      words "evt standup 10-11".toList = ["evt".toList] ++ ["standup".toList, "10-11".toList] ∧
      c' ≠ { c with attendees := c'.attendees, preview := c'.preview } := by
  have hread : Command.read {} ⟨8, 10, 0⟩ "evt @sam standup 10-11" = .ok
      { kind := .event, subtype := some "meeting"
        slot := { start := some ⟨10, 0⟩, finish := some ⟨11, 0⟩, length := some 60 }
        attendees := ["sam"], notes := { title := some "standup" }, isValid := true
        preview := some "meeting: standup at 10:00 to 11:00 with sam" } := by
    decide
  have hread' : Command.read {} ⟨8, 10, 0⟩ "evt standup 10-11" = .ok
      { kind := .event, subtype := some "standup"
        slot := { start := some ⟨10, 0⟩, finish := some ⟨11, 0⟩, length := some 60 }
        isValid := true, preview := some "standup at 10:00 to 11:00" } := by
    decide
  refine ⟨_, _, hread, rfl, by decide, .event (by decide) ?_, hread', rfl, by decide, by decide⟩
  rintro _ ⟨⟩
  decide

end Command

end Shorthand
