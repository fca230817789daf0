import Shorthand.Proofs.Command.Synonym
import Shorthand.Proofs.Command.WellFormed
import Shorthand.Proofs.Completion.Partial

/-!
Completions of lines about events, read as lines. `Completion.read_eventDetails` says which of them
are events: the rule looks at how a line begins, and a line such as `call mom` begins like one about
an event without being one.
-/

namespace Shorthand

open Text

/-! ## One more person -/

namespace Command

variable {defaults : LineDefaults} {now : ClockReading} {name : List Char}

def EventParts.alsoJoined (name : List Char) (parts : EventParts) : EventParts :=
  { parts with attendees := parts.attendees ++ [name] }

/-- A person at the end of a line is the last one of the event. -/
theorem EventParts.read_append_name (hname : name ≠ []) (slot : Slot) (ws : List (List Char)) :
    EventParts.read now slot (ws ++ ['@' :: name]) =
      (EventParts.read now slot ws).map (alsoJoined name) := by
  -- By induction on the words: what each of them adds comes in front of the new person.
  induction ws generalizing slot with
  | nil =>
    rw [List.nil_append, read_name, EventParts.read]
    simp only [Except.map, joined, alsoJoined, List.isEmpty_iff, hname, if_false]
    rfl
  | cons w ws ih =>
    have hjoined : ∀ other : List Char,
        joined other ∘ alsoJoined name = alsoJoined name ∘ joined other := by
      intro other
      funext parts
      simp only [Function.comp_apply, joined, alsoJoined]
      split <;> rfl
    have htitled : titled w ∘ alsoJoined name = alsoJoined name ∘ titled w := rfl
    have hcomp : ∀ (f g : EventParts → EventParts) (r : Except ReadFault EventParts),
        (r.map f).map g = r.map (g ∘ f) := fun f g r => by cases r <;> rfl
    rw [List.cons_append]
    by_cases hat : w.head? = some '@'
    · obtain ⟨other, rfl⟩ := List.head?_eq_some_iff.1 hat
      rw [read_name, read_name, ih, hcomp, hcomp, hjoined]
    · by_cases hstart : slot.start = none
      · rw [read_word hat hstart, read_word hat hstart]
        cases Slot.read now w with
        | error fault => rfl
        | ok time =>
          show (if time.isEmpty then _ else _) = Except.map _ (if time.isEmpty then _ else _)
          split
          · rw [ih, hcomp, hcomp, htitled]
          · exact ih time
      · have hstart : slot.start.isSome = true := Option.isSome_iff_ne_none.2 hstart
        rw [read_word_of_isSome hat hstart, read_word_of_isSome hat hstart, ih, hcomp, hcomp,
          htitled]

/-- A name behind the words of an event is the last of its people. -/
theorem getLast?_attendees_of_ofEvent {kind : EventKind} {ws : List (List Char)} {c : Command}
    (hname : name ≠ []) (h : ofEvent now kind (ws ++ ['@' :: name]) = .ok c) :
    c.attendees.getLast? = some (String.ofList name) := by
  rw [ofEvent_eq_map, EventParts.read_append_name hname] at h
  obtain ⟨parts, hparts, rfl⟩ := map_eq_ok_iff.1 h
  obtain ⟨before, -, rfl⟩ := map_eq_ok_iff.1 hparts
  show ((before.attendees ++ [name]).map String.ofList).getLast? = _
  rw [List.map_append, List.map_singleton, List.getLast?_concat]

end Command

/-- Whatever stands at the end of a line about an event is left for the event to read. -/
theorem Keyword.exists_head_eq_event {k : Keyword} (hk : k.kind = .event) (after word : List Char)
    (first : List Char) (ws : List (List Char)) :
    ∃ kind rest, k.head after (first :: (ws ++ [word])) = .event kind (rest ++ [word]) := by
  cases k with
  | event =>
    rw [Keyword.head]
    cases EventKind.ofWord? first with
    | none => exact ⟨.meeting, first :: ws, rfl⟩
    | some kind => exact ⟨kind, ws, rfl⟩
  | eventWord kind => exact ⟨kind, first :: ws, rfl⟩
  | _ => cases hk

/-! ## Lines that begin like one about an event -/

def eventFronts : List String := ["ev", "meet", "call"]

/-- Nothing but an event claims a line that begins like this. -/
theorem Claims.eq_event {now : ClockReading} {name : List Char} {next : Option (List Char)}
    {kind : CommandKind} {front : String} (hfront : front ∈ eventFronts)
    (hname : front.toList <+: name) (h : Claims now name next kind) : kind = .event := by
  have hnames : ∀ names : List String, String.ofList name ∈ names →
      ∃ other ∈ names, front.toList <+: other.toList := by
    intro names hmem
    exact ⟨_, hmem, by rwa [String.toList_ofList]⟩
  -- No other keyword begins in this way.
  have hother : ∀ names : List String,
      (∀ front ∈ eventFronts, ∀ other ∈ names, ¬ front.toList <+: other.toList) →
      String.ofList name ∉ names := by
    intro names hnone hmem
    obtain ⟨other, hother, hprefix⟩ := hnames names hmem
    exact hnone front hfront other hother hprefix
  have hhead : ∀ c ∈ name.head?, c ∈ ['e', 'm', 'c'] := by
    obtain ⟨back, rfl⟩ := hname
    simp only [eventFronts, List.mem_cons, List.not_mem_nil, or_false] at hfront
    rcases hfront with rfl | rfl | rfl <;> rintro c ⟨⟩ <;> decide
  cases kind with
  | event => rfl
  | block =>
    rcases h with h | ⟨h, -⟩
    · exact absurd h (hother _ (by decide))
    · exact absurd h (hother _ (by decide))
  | assistant =>
    rcases h with h | h
    · exact absurd (List.mem_singleton.2 h) (hother ["ai"] (by decide))
    · exact absurd (hhead '/' h) (by decide)
  | quick =>
    rcases h with h | ⟨⟨back, rfl⟩, -⟩
    · exact absurd h (hother _ (by decide))
    · exact absurd (hhead 'n' rfl) (by decide)
  | batch => exact absurd (List.mem_singleton.2 h) (hother ["batch"] (by decide))
  | _ => exact absurd h (hother _ (by decide))

namespace Command

variable {defaults : LineDefaults} {now : ClockReading} {line : String} {c : Command}
  {first : List Char} {rest : List (List Char)}

/-- A line that begins like one about an event is one or is a plain task, and valid either way. -/
theorem event_or_task (hwords : words line.toList = first :: rest) {front : String}
    (hfront : front ∈ eventFronts) (hfirst : front.toList <+: lower first)
    (hread : Command.read defaults now line = .ok c) :
    c.isValid = true ∧ (Claims now (lower first) rest.head? .event → c.kind = .event) ∧
      (¬ Claims now (lower first) rest.head? .event → c.kind = .task) := by
  have hwords' : words (trim line.toList) = first :: rest := by rw [words_trim, hwords]
  have hkind : c.kind = .event ↔ Claims now (lower first) rest.head? .event :=
    kind_eq_iff_claims hwords' hread nofun
  rcases claims_or_ofPlain hwords' hread with hclaims | ⟨rfl, -⟩
  · have hevent : c.kind = .event := hclaims.eq_event hfront hfirst
    have hfits := (wellFormed_of_read hread).fits
    unfold Fits at hfits
    rw [hevent] at hfits
    exact ⟨hfits.1, fun _ => hevent, fun hnot => absurd (hkind.1 hevent) hnot⟩
  · obtain ⟨t, ht, -⟩ := exists_plainTask defaults (trim line.toList)
    rw [ht] at hkind ⊢
    exact ⟨rfl, hkind.2, fun _ => rfl⟩

/-- The last person of an event is the one who stands at the end of its line. -/
theorem getLast?_attendees_of_read {second name : List Char} (hname : name ≠ [])
    (hwords : words line.toList = first :: second :: (rest ++ ['@' :: name]))
    (hclaims : Claims now (lower first) (some second) .event)
    (hread : Command.read defaults now line = .ok c) :
    c.attendees.getLast? = some (String.ofList name) := by
  obtain ⟨k, hk, halone, hkind⟩ : ∃ k, Keyword.ofName? (String.ofList (lower first)) = some k ∧
      (k.isEverydayWord = true → StandsAlone now (some second)) ∧ k.kind = .event := by
    rcases hclaims.cases with h | ⟨-, h⟩ | ⟨-, -, h⟩
    · exact h
    · cases h
    · cases h
  have hline : Says [String.ofList (lower first)] (second :: (rest ++ ['@' :: name])) line :=
    ⟨[first], rfl, hwords⟩
  have hbatch : k ≠ .batch := by
    rintro rfl
    cases hkind
  obtain ⟨kind, ws, hhead⟩ := Keyword.exists_head_eq_event hkind [] ('@' :: name) second rest
  rw [read_of_first_word hline hk hbatch halone, hhead] at hread
  exact getLast?_attendees_of_ofEvent hname hread

end Command

/-! ## Completions -/

/-- The words of a line which its completions make an event: a word alone, that the keyword takes
the place of; words behind a keyword of events; words behind a kind of event that stands alone. -/
def BecomesEvent (now : ClockReading) : List (List Char) → Prop
  | [] => False
  | [_] => True
  | first :: second :: _ => Claims now (lower first) (some second) .event

namespace Completion

/-- The keyword takes the place of an unfinished word alone. -/
theorem eventBase_cases {line first : List Char} {rest : List (List Char)}
    (hwords : words line = first :: rest) :
    (eventBase (Partial.ofLine line) = trim line ∧
      (rest = [] → String.ofList (lower first) ∈ ["evt", "event"])) ∨
    (eventBase (Partial.ofLine line) = "evt".toList ∧ rest = []) := by
  have hlower : (Partial.ofLine line).words = lower first :: rest.map lower := by
    rw [Partial.words_ofLine, hwords, List.map_cons]
  unfold eventBase
  split
  · rename_i hbase
    refine Or.inl ⟨rfl, ?_⟩
    rintro rfl
    rw [hlower] at hbase
    have hname : lower first = "evt".toList ∨ lower first = "event".toList := by
      simpa using hbase
    rcases hname with h | h <;> · rw [h]; decide
  · rename_i hbase
    refine Or.inr ⟨rfl, ?_⟩
    simp only [Bool.or_eq_true, decide_eq_true_eq, not_or] at hbase
    have hlength := hbase.1.1
    rw [Partial.length_words_ofLine, hwords, List.length_cons] at hlength
    exact List.length_eq_zero_iff.1 (by omega)

def offeredWords : List (List Char) :=
  ["evt".toList, "meeting".toList, "2-3".toList, "@name".toList]

/-- What is offered for a line that begins like one about an event: a kind and a time if none of its
words is a kind, and one more person if there is one and another word beside it. -/
theorem mem_eventDetails {line : List Char} {c : Completion}
    (h : c ∈ eventDetails (Partial.ofLine line)) :
    ∃ front ∈ eventFronts, ∃ first rest, words line = first :: rest ∧
      front.toList <+: lower first ∧
      (((∀ w ∈ words line, EventKind.ofWord? w = none) ∧
          c.text = String.ofList (eventBase (Partial.ofLine line) ++ " meeting 2-3".toList)) ∨
        (rest ≠ [] ∧ c.text = (Partial.ofLine line).followedBy " @name")) := by
  have hclear : ∀ front ∈ eventFronts,
      front.toList ≠ [] ∧ front.toList.all (!isBlank ·) = true := by decide
  unfold eventDetails at h
  split at h
  · rename_i hstart
    obtain ⟨front, hfront, hprefix⟩ := Partial.startsWithAny_iff.1 hstart
    obtain ⟨hne, hall⟩ := hclear front hfront
    obtain ⟨first, rest, hwords, hfirst⟩ :=
      Partial.exists_first_of_front hne (not_blank_of_all hall) hprefix
    refine ⟨front, hfront, first, rest, hwords, hfirst, ?_⟩
    split at h
    · split at h
      · -- A kind is among the words: one more person, if another word stands beside the first one.
        rename_i hlength
        obtain rfl := List.mem_singleton.1 h
        rw [Partial.length_words_ofLine, hwords] at hlength
        refine Or.inr ⟨?_, rfl⟩
        rintro rfl
        exact absurd hlength (by simp)
      · cases h
    · rename_i hkind
      rw [Partial.any_words_iff EventKind.ofWord?_lower] at hkind
      obtain rfl := List.mem_singleton.1 h
      refine Or.inl ⟨fun w hw => ?_, rfl⟩
      by_contra hne
      exact hkind ⟨w, hw, Option.isSome_iff_ne_none.2 hne⟩
  · cases h

variable {defaults : LineDefaults} {now : ClockReading} {line : String} {c : Completion}

/-- The words of a completed line: those of the line, or the keyword in place of an unfinished one,
and then what is offered. -/
theorem exists_words_eventDetails (now : ClockReading)
    (h : c ∈ eventDetails (Partial.ofLine line.toList)) :
    ∃ front ∈ eventFronts, ∃ first rest, words c.text.toList = first :: rest ∧
      front.toList <+: lower first ∧
      (BecomesEvent now (words line.toList) ↔ Claims now (lower first) rest.head? .event) ∧
      (∀ w ∈ first :: rest, w ∈ words line.toList ∨ w ∈ offeredWords) ∧
      (c.text = (Partial.ofLine line.toList).followedBy " @name" → ∃ second more,
        rest = second :: (more ++ ["@name".toList])) := by
  obtain ⟨front, hfront, first, rest, hwords, hfirst, hoffer⟩ := mem_eventDetails h
  have hbehind : ∀ more : List (List Char), more ⊆ offeredWords →
      ∀ w ∈ first :: (rest ++ more), w ∈ words line.toList ∨ w ∈ offeredWords := by
    intro more hmore w hw
    rw [← List.cons_append, ← hwords] at hw
    exact (List.mem_append.1 hw).imp_right fun hw => hmore hw
  -- A completed line ends in the name or in the time, and not in both.
  have hperson : ∀ front : List (List Char),
      words c.text.toList = front ++ ["meeting".toList, "2-3".toList] →
      c.text ≠ (Partial.ofLine line.toList).followedBy " @name" := by
    intro front htime hname
    rw [hname, Partial.words_followedBy rfl] at htime
    have hlast := congrArg List.getLast? htime
    rw [List.getLast?_append_of_ne_nil _ (by decide), List.getLast?_append_of_ne_nil _ (by decide)]
      at hlast
    exact absurd hlast (by decide)
  rcases hoffer with ⟨-, htext⟩ | ⟨hrest, htext⟩
  · rcases eventBase_cases hwords with ⟨hbase, hname⟩ | ⟨hbase, rfl⟩
    · -- The line stays as it is, with a kind and a time behind it.
      have htext' : c.text = (Partial.ofLine line.toList).followedBy " meeting 2-3" := by
        rw [htext, hbase]
        rfl
      have hboth : words c.text.toList = first :: (rest ++ ["meeting".toList, "2-3".toList]) := by
        rw [htext', Partial.words_followedBy rfl, hwords]
        rfl
      refine ⟨front, hfront, first, _, hboth, hfirst, ?_, hbehind _ (by decide),
        fun h => absurd h (hperson (first :: rest) hboth)⟩
      rw [hwords]
      cases rest with
      | nil => exact ⟨fun _ => Or.inl (hname rfl), fun _ => trivial⟩
      | cons second more => exact Iff.rfl
    · -- The keyword takes the place of the only word.
      have hboth : words c.text.toList = ["evt".toList, "meeting".toList, "2-3".toList] := by
        rw [show c.text = "evt meeting 2-3" by rw [htext, hbase]; rfl]
        decide
      refine ⟨"ev", by decide, _, _, hboth, by decide, ?_,
        fun w hw => Or.inr ((by decide : _ ⊆ offeredWords) hw),
        fun h => absurd h (hperson ["evt".toList] hboth)⟩
      rw [hwords]
      exact ⟨fun _ => Or.inl (by decide), fun _ => trivial⟩
  · obtain ⟨second, more, rfl⟩ := List.exists_cons_of_ne_nil hrest
    refine ⟨front, hfront, first, second :: (more ++ ["@name".toList]), ?_, hfirst, ?_,
      hbehind ["@name".toList] (by decide), fun _ => ⟨second, more, rfl⟩⟩
    · rw [htext, Partial.words_followedBy rfl, hwords]
      rfl
    · rw [hwords]
      rfl

def hasAsciiDigits (w : List Char) : Bool := w.all fun d => !isDecimal d || d.isDigit

/-- A word whose digits are all of ASCII is no torn range. -/
theorem not_isTorn_lower {w : List Char} (hw : hasAsciiDigits w = true) : ¬ IsTorn (lower w) := by
  intro htorn
  obtain ⟨d, hd, hdecimal, hdigit⟩ := htorn.exists_not_isDigit
  have hd := List.all_eq_true.1 hw d (mem_of_isDecimal_of_mem_lower hd hdecimal)
  rw [hdecimal, hdigit] at hd
  cases hd

/-- A completed line can be read unless one of the words that were typed is a torn range. -/
theorem exists_read_eventDetails (h : c ∈ eventDetails (Partial.ofLine line.toList))
    (htorn : ∀ w ∈ words line.toList, ¬ IsTorn (lower w)) :
    ∃ command, Command.read defaults now c.text = .ok command := by
  obtain ⟨-, -, first, rest, hwords, -, -, hmem, -⟩ := exists_words_eventDetails now h
  have hoffered : ∀ w ∈ offeredWords, hasAsciiDigits w = true := by decide
  cases hread : Command.read defaults now c.text with
  | ok command => exact ⟨command, rfl⟩
  | error fault =>
    obtain ⟨w, hconsults, hw⟩ := Command.read_eq_error_iff_isTorn.1 hread
    have hline := hconsults.mem
    rw [words_trim, hwords] at hline
    rcases hmem w hline with hline | hoffer
    · exact absurd hw (htorn w hline)
    · exact absurd hw (not_isTorn_lower (hoffered w hoffer))

/-- A completion of a line that begins like one about an event is read as a valid event if the line
is one word, or if a keyword of events or a kind that stands alone is its first word; then the
person who was offered is the last one. Otherwise it is read as a task. -/
theorem read_eventDetails (defaults : LineDefaults) (now : ClockReading)
    (h : c ∈ eventDetails (Partial.ofLine line.toList)) :
    ((∀ w ∈ words line.toList, ¬ IsTorn (lower w)) →
      ∃ command, Command.read defaults now c.text = .ok command) ∧
    ∀ command, Command.read defaults now c.text = .ok command →
      command.isValid = true ∧
      (BecomesEvent now (words line.toList) → command.kind = .event ∧
        (c.text = (Partial.ofLine line.toList).followedBy " @name" →
          command.attendees.getLast? = some "name")) ∧
      (¬ BecomesEvent now (words line.toList) → command.kind = .task) := by
  refine ⟨exists_read_eventDetails h, fun command hread => ?_⟩
  obtain ⟨front, hfront, first, rest, hwords, hfirst, hbecomes, -, hperson⟩ :=
    exists_words_eventDetails now h
  obtain ⟨hvalid, hevent, htask⟩ := Command.event_or_task hwords hfront hfirst hread
  rw [hbecomes]
  refine ⟨hvalid, fun hclaims => ⟨hevent hclaims, fun htext => ?_⟩, htask⟩
  obtain ⟨second, more, rfl⟩ := hperson htext
  have hname : "name".toList ≠ [] := by decide
  exact Command.getLast?_attendees_of_read hname hwords hclaims hread

theorem read_eventDetails_standup :
    ∃ c ∈ eventDetails (Partial.ofLine "evt standup 9-10".toList),
      c.text = "evt standup 9-10 @name" ∧
      ∃ command, Command.read {} ⟨8, 10, 0⟩ c.text = .ok command ∧ command.isValid = true ∧
        command.kind = .event ∧ command.attendees.getLast? = some "name" := by
  have hline : words "evt standup 9-10".toList =
      ["evt".toList, "standup".toList, "9-10".toList] := by decide
  have htorn : ∀ w ∈ words "evt standup 9-10".toList, ¬ IsTorn (lower w) := by
    intro w hw
    have hall : (words "evt standup 9-10".toList).all hasAsciiDigits = true := by decide
    exact not_isTorn_lower (List.all_eq_true.1 hall w hw)
  have hbecomes : BecomesEvent ⟨8, 10, 0⟩ (words "evt standup 9-10".toList) := by
    rw [hline]
    exact Or.inl (by decide)
  have hmem : ⟨"evt standup 9-10 @name", "Invite attendees with @name", .ofPercent 85,
      some "evt meeting 2-3 @alex @sam"⟩ ∈
        eventDetails (Partial.ofLine "evt standup 9-10".toList) :=
    List.mem_singleton.2 rfl
  obtain ⟨hread, hevent⟩ := read_eventDetails {} ⟨8, 10, 0⟩ hmem
  obtain ⟨command, hcommand⟩ := hread htorn
  obtain ⟨hvalid, hbecome, -⟩ := hevent command hcommand
  obtain ⟨hkind, hperson⟩ := hbecome hbecomes
  exact ⟨_, hmem, rfl, command, hcommand, hvalid, hkind, hperson rfl⟩

/-- Each of the two lines begins like one about an event, and is a task: the second completion even
loses its time to the name of the task. -/
theorem read_call_mom :
    (eventDetails (Partial.ofLine "call mom".toList)).map (·.text) = ["call mom @name"] ∧
    Command.read {} ⟨8, 10, 0⟩ "call mom @name" =
      .ok (Command.ofTask { name := "call mom @name", minutes := 30 }) ∧
    (eventDetails (Partial.ofLine "even more".toList)).map (·.text) = ["even more meeting 2-3"] ∧
    Command.read {} ⟨8, 10, 0⟩ "even more meeting 2-3" =
      .ok (Command.ofTask { name := "even more meeting 2", minutes := 3 }) := by
  decide

end Completion

end Shorthand
