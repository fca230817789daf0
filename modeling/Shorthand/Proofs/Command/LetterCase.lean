import Shorthand.Proofs.Command.Rules
import Shorthand.Proofs.Task.LetterCase

/-!
Letter case. Each step that makes a command of a line is followed through the same line in small
letters; `Command.read_letter_case` says that two lines which differ in letter case only are one
command, once the texts of the command are in small letters.
-/

namespace Shorthand

open Text

/-! ## Words -/

section Words

variable {now : ClockReading}

theorem Slot.read_asciiLower (now : ClockReading) (expression : List Char) :
    Slot.read now (asciiLower expression) = Slot.read now expression := by
  rw [Slot.read, trim_asciiLower, lower_asciiLower, Slot.read]

theorem resolves_asciiLower (word : List Char) :
    resolves now (asciiLower word) = resolves now word := by
  rw [resolves, Slot.read_asciiLower, resolves]

theorem BlockKind.ofWord?_asciiLower (word : List Char) :
    ofWord? (asciiLower word) = ofWord? word := by
  rw [ofWord?, lower_asciiLower, ofWord?]

theorem EventKind.ofWord?_asciiLower (word : List Char) :
    ofWord? (asciiLower word) = ofWord? word := by
  rw [ofWord?, lower_asciiLower, ofWord?]

theorem spaced_asciiLower (ws : List (List Char)) :
    spaced (ws.map asciiLower) = asciiLower (spaced ws) :=
  joinWith_asciiLower rfl ws

theorem head?_asciiLower_eq_iff {sep : Char} (hsep : IsMark sep) (word : List Char) :
    (asciiLower word).head? = some sep ↔ word.head? = some sep := by
  cases word with
  | nil => exact Iff.rfl
  | cons c word =>
    show some c.toLower = some sep ↔ some c = some sep
    rw [Option.some_inj, Option.some_inj]
    exact hsep c

end Words

/-! ## Heads -/

def Head.lowered : Head → Head
  | .bareBlock => .bareBlock
  | .block kind rest => .block kind (rest.map asciiLower)
  | .event kind rest => .event kind (rest.map asciiLower)
  | .routine name => .routine (name.map asciiLower)
  | .task rest => .task (rest.map asciiLower)
  | .batch text => .batch (asciiLower text)
  | .template name => .template (name.map asciiLower)
  | .assistant query => .assistant (asciiLower query)
  | .quick action time => .quick action (time.map asciiLower)
  | .plain text => .plain (asciiLower text)

namespace Keyword

variable {now : ClockReading}

/-- Whether a keyword claims its line does not depend on the case of letters. -/
theorem claims_asciiLower (k : Keyword) (rest : List (List Char)) :
    k.claims now (rest.map asciiLower) = k.claims now rest := by
  unfold claims
  cases k.isEverydayWord with
  | false => rfl
  | true =>
    cases rest with
    | nil => rfl
    | cons next rest =>
      show (if (asciiLower next).head? = some '@' then .ok true
          else resolves now (asciiLower next)) =
        if next.head? = some '@' then .ok true else resolves now next
      simp only [head?_asciiLower_eq_iff isMark_at, resolves_asciiLower]

/-- The head of a line in small letters is the head in small letters. -/
theorem head_asciiLower (k : Keyword) (after : List Char) (rest : List (List Char)) :
    k.head (asciiLower after) (rest.map asciiLower) = (k.head after rest).lowered := by
  unfold head
  cases k with
  | block =>
    cases rest with
    | nil => rfl
    | cons word more =>
      simp only [List.map_cons, BlockKind.ofWord?_asciiLower]
      cases BlockKind.ofWord? word <;> rfl
  | event =>
    cases rest with
    | nil => rfl
    | cons word more =>
      simp only [List.map_cons, EventKind.ofWord?_asciiLower]
      cases EventKind.ofWord? word <;> rfl
  | batch => exact congrArg Head.batch (trim_asciiLower after)
  | assistant => exact congrArg Head.assistant (spaced_asciiLower rest)
  | quick action =>
    cases action with
    | now => exact congrArg (Head.quick .now) List.head?_map
    | _ => rfl
  | _ => rfl

end Keyword

namespace Head

theorem slashQuery_asciiLower (text first : List Char) (rest : List (List Char)) :
    slashQuery (asciiLower text) (asciiLower first) (rest.map asciiLower) =
      asciiLower (slashQuery text first rest) := by
  have hslash : asciiLower first = ['/'] ↔ first = ['/'] := by
    rw [asciiLower, List.map_eq_singleton_iff]
    constructor
    · rintro ⟨c, rfl, hc⟩
      rw [(isMark_slash c).1 hc]
    · rintro rfl
      exact ⟨'/', rfl, rfl⟩
  have hdrop : (asciiLower text).dropWhile (· = '/') = asciiLower (text.dropWhile (· = '/')) :=
    dropWhile_asciiLower (fun c => decide_eq_decide.2 (isMark_slash c)) text
  unfold slashQuery
  by_cases hfirst : first = ['/']
  · rw [if_pos hfirst, if_pos (hslash.2 hfirst), spaced_asciiLower]
  · rw [if_neg hfirst, if_neg (mt hslash.1 hfirst), hdrop, trim_asciiLower]

/-- A line in small letters has the same head in small letters. -/
theorem read_asciiLower (now : ClockReading) (text : List Char) :
    Head.read now (asciiLower text) = (Head.read now text).map lowered := by
  unfold Head.read
  rw [words_asciiLower]
  cases words text with
  | nil => rfl
  | cons first rest =>
    simp only [List.map_cons, lower_asciiLower]
    by_cases hplus : (Shape.after? ['n', 'o', 'w', '+'] (lower first)).isSome = true
    · rw [if_pos hplus, if_pos hplus]
      cases resolves now (lower first) with
      | error fault => rfl
      | ok r =>
        cases r with
        | false => rfl
        | true =>
          -- The word is kept as it was compared.
          show Except.ok (Head.quick .now (some (lower first))) =
            .ok (.quick .now (some (asciiLower (lower first))))
          rw [asciiLower_lower]
    · rw [if_neg hplus, if_neg hplus]
      by_cases hslash : (lower first).head? = some '/'
      · rw [if_pos hslash, if_pos hslash, slashQuery_asciiLower]
        rfl
      · rw [if_neg hslash, if_neg hslash]
        cases Keyword.ofName? (String.ofList (lower first)) with
        | none => rfl
        | some k =>
          have hafter : (asciiLower text).drop (asciiLower first).length =
              asciiLower (text.drop first.length) := by
            rw [length_asciiLower, asciiLower, ← List.map_drop, asciiLower]
          dsimp only
          rw [k.claims_asciiLower, hafter, k.head_asciiLower]
          cases k.claims now rest with
          | error fault => rfl
          | ok c => cases c <;> rfl

end Head

/-! ## Commands -/

@[simp]
theorem Task.lowered_lowered (t : Task) : t.lowered.lowered = t.lowered := by
  simp only [Task.lowered, toLower_toLower_string]

/-- Words in small letters note the same tasks, in small letters. -/
theorem filterMap_read_asciiLower (ws : List (List Char)) :
    (ws.map asciiLower).filterMap Task.read? = (ws.filterMap Task.read?).map Task.lowered := by
  have hread : Task.read? ∘ asciiLower = fun w => (Task.read? w).map Task.lowered :=
    funext Task.read?_asciiLower
  rw [List.filterMap_map, hread, List.map_filterMap]

namespace Command

def lowered (c : Command) : Command :=
  { c with
    subtype := c.subtype.map String.toLower
    tasks := c.tasks.map Task.lowered
    attendees := c.attendees.map String.toLower
    notes := { c.notes with
      query := c.notes.query.map String.toLower
      commands := c.notes.commands.map String.toLower
      title := c.notes.title.map String.toLower }
    hint := c.hint.map String.toLower
    preview := c.preview.map String.toLower }

variable {defaults : LineDefaults} {now : ClockReading}

/-- A hint that quotes a word quotes it in small letters. -/
theorem toLower_invalidTime (word : String) :
    (Hint.invalidTime word.toLower).toLower = (Hint.invalidTime word).toLower :=
  toLower_append_congr (toLower_append_congr
    (toLower_append_congr rfl (toLower_toLower_string word)) rfl) rfl

theorem lowered_blockAt (kind : BlockKind) (time : List Char) (rest : List (List Char))
    (slot : Slot) :
    (blockAt kind (asciiLower time) (rest.map asciiLower) slot).lowered =
      (blockAt kind time rest slot).lowered := by
  have htasks : ∀ ts : List Task, (ts.map Task.lowered).map Task.lowered = ts.map Task.lowered := by
    intro ts
    rw [List.map_map]
    exact List.map_congr_left fun t _ => t.lowered_lowered
  unfold blockAt
  rw [filterMap_read_asciiLower, List.length_map]
  by_cases hempty : slot.isEmpty = true
  · rw [if_pos hempty, if_pos hempty]
    simp only [lowered, Option.map_some, ← toLower_ofList, toLower_invalidTime]
  · rw [if_neg hempty, if_neg hempty]
    by_cases hcomplete : slot.isComplete = true
    · rw [if_pos hcomplete, if_pos hcomplete]
      simp only [lowered, htasks]
    · rw [if_neg hcomplete, if_neg hcomplete]
      simp only [lowered, htasks]

namespace EventParts

def lowered (parts : EventParts) : EventParts :=
  { parts with
    title := parts.title.map asciiLower
    attendees := parts.attendees.map asciiLower }

theorem lowered_joined (name : List Char) (parts : EventParts) :
    (joined name parts).lowered = joined (asciiLower name) parts.lowered := by
  rw [joined, joined, isEmpty_asciiLower]
  split <;> rfl

/-- The words of an event in small letters make the parts of the event, in small letters. -/
theorem read_asciiLower (slot : Slot) (ws : List (List Char)) :
    EventParts.read now slot (ws.map asciiLower) = (EventParts.read now slot ws).map lowered := by
  -- By induction on the words: a name is a name and a time is a time in small letters too.
  induction ws generalizing slot with
  | nil => rfl
  | cons w ws ih =>
    show EventParts.read now slot (asciiLower w :: ws.map asciiLower) = _
    by_cases hat : w.head? = some '@'
    · obtain ⟨name, rfl⟩ := List.head?_eq_some_iff.1 hat
      show EventParts.read now slot (('@' :: asciiLower name) :: ws.map asciiLower) = _
      rw [read_name, ih, read_name]
      cases EventParts.read now slot ws with
      | error fault => rfl
      | ok parts => exact congrArg Except.ok (lowered_joined name parts).symm
    · have hat' : (asciiLower w).head? ≠ some '@' := mt (head?_asciiLower_eq_iff isMark_at w).1 hat
      by_cases hstart : slot.start = none
      · rw [read_word hat' hstart, Slot.read_asciiLower, read_word hat hstart]
        cases Slot.read now w with
        | error fault => rfl
        | ok time =>
          show (if time.isEmpty = true then _ else _) =
            Except.map lowered (if time.isEmpty = true then _ else _)
          by_cases hempty : time.isEmpty = true
          · rw [if_pos hempty, if_pos hempty, ih]
            cases EventParts.read now slot ws <;> rfl
          · rw [if_neg hempty, if_neg hempty, ih]
      · have hsome := Option.isSome_iff_ne_none.2 hstart
        rw [read_word_of_isSome hat' hsome, ih, read_word_of_isSome hat hsome]
        cases EventParts.read now slot ws <;> rfl

end EventParts

/-! ### Previews -/

theorem toLower_preview_event (kind : EventKind) (title : Option String) (slot : Slot)
    (attendees : List String) :
    (Preview.event kind (title.map String.toLower) slot (attendees.map String.toLower)).toLower =
      (Preview.event kind title slot attendees).toLower := by
  have hcomma : ", ".toLower = ", " := by
    rw [← String.toList_inj, toList_toLower]
    decide
  have hpeople : (if (attendees.map String.toLower).isEmpty then ""
      else " with " ++ String.intercalate ", " (attendees.map String.toLower)).toLower =
      (if attendees.isEmpty then ""
        else " with " ++ String.intercalate ", " attendees).toLower := by
    rw [List.isEmpty_map]
    by_cases hnone : attendees.isEmpty = true
    · rw [if_pos hnone, if_pos hnone]
    · rw [if_neg hnone, if_neg hnone, toLower_intercalate hcomma]
      exact toLower_append_congr rfl (toLower_toLower_string _)
  cases title with
  | none => exact toLower_append_congr (toLower_append_congr rfl rfl) hpeople
  | some t =>
    have htitle : (": " ++ t.toLower).toLower = (": " ++ t).toLower :=
      toLower_append_congr rfl (toLower_toLower_string t)
    exact toLower_append_congr (toLower_append_congr (toLower_append_congr rfl htitle) rfl) hpeople

theorem toLower_preview_task (t : Task) :
    (Preview.task t.lowered).toLower = (Preview.task t).toLower :=
  toLower_append_congr (toLower_append_congr (toLower_append_congr
    (toLower_append_congr rfl (toLower_toLower_string t.name)) rfl) rfl) rfl

/-- A preview that quotes a name, and says something else where there is none. -/
theorem toLower_quote (none : String) (quote : String → String)
    (hquote : ∀ name, (quote name.toLower).toLower = (quote name).toLower) (name : String) :
    (if name.toLower.isEmpty then none else quote name.toLower).toLower =
      (if name.isEmpty then none else quote name).toLower := by
  rw [isEmpty_toLower]
  by_cases hname : name.isEmpty = true
  · rw [if_pos hname, if_pos hname]
  · rw [if_neg hname, if_neg hname, hquote]

theorem toLower_preview_routine (name : String) :
    (Preview.routine name.toLower).toLower = (Preview.routine name).toLower :=
  toLower_quote "Choose a routine" (fun name => "Start routine '" ++ name ++ "'") (fun name =>
    toLower_append_congr (toLower_append_congr rfl (toLower_toLower_string name)) rfl) name

theorem toLower_preview_template (name : String) :
    (Preview.template name.toLower).toLower = (Preview.template name).toLower :=
  toLower_quote "Choose a template" (fun name => "Apply template '" ++ name ++ "'") (fun name =>
    toLower_append_congr (toLower_append_congr rfl (toLower_toLower_string name)) rfl) name

theorem toLower_preview_assistant (query : String) :
    (Preview.assistant query.toLower).toLower = (Preview.assistant query).toLower :=
  toLower_quote "Open the assistant" (fun query => "Ask the assistant: " ++ query)
    (fun query => toLower_append_congr rfl (toLower_toLower_string query)) query

/-! ### Rules -/

theorem map_toLower_ofList (ws : List (List Char)) :
    (ws.map asciiLower).map String.ofList = (ws.map String.ofList).map String.toLower := by
  rw [List.map_map, List.map_map]
  exact List.map_congr_left fun w _ => (toLower_ofList w).symm

theorem map_toLower_toLower (ls : List String) :
    (ls.map String.toLower).map String.toLower = ls.map String.toLower := by
  rw [List.map_map]
  exact List.map_congr_left fun l _ => toLower_toLower_string l

theorem option_toLower_toLower (s : Option String) :
    (s.map String.toLower).map String.toLower = s.map String.toLower := by
  cases s with
  | none => rfl
  | some s => exact congrArg some (toLower_toLower_string s)

/-- The words of an event in small letters make the same event, up to small letters. -/
theorem lowered_ofEvent (kind : EventKind) (rest : List (List Char)) :
    (ofEvent now kind (rest.map asciiLower)).map lowered = (ofEvent now kind rest).map lowered := by
  rw [ofEvent_eq_map, EventParts.read_asciiLower, ofEvent_eq_map]
  cases EventParts.read now {} rest with
  | error fault => rfl
  | ok parts =>
    have htitle : (if (parts.title.map asciiLower).isEmpty then none
        else some (String.ofList (spaced (parts.title.map asciiLower)))) =
        (if parts.title.isEmpty then none
          else some (String.ofList (spaced parts.title))).map String.toLower := by
      rw [List.isEmpty_map, spaced_asciiLower, ← toLower_ofList]
      split <;> rfl
    have hpeople := map_toLower_ofList parts.attendees
    simp only [Except.map, EventParts.lowered, htitle, hpeople, lowered, option_toLower_toLower,
      map_toLower_toLower, Option.map_some, toLower_preview_event]

theorem lowered_ofNamed (kind : CommandKind) (choose : String) {preview : String → String}
    (hpreview : ∀ name, (preview name.toLower).toLower = (preview name).toLower)
    (name : List (List Char)) :
    (ofNamed kind choose preview (name.map asciiLower)).lowered =
      (ofNamed kind choose preview name).lowered := by
  unfold ofNamed
  dsimp only
  rw [spaced_asciiLower, ← toLower_ofList, isEmpty_toLower]
  by_cases hname : (String.ofList (spaced name)).isEmpty = true
  · rw [if_pos hname, if_pos hname]
    simp only [lowered, Option.map_some, hpreview]
  · rw [if_neg hname, if_neg hname]
    simp only [lowered, Option.map_some, hpreview, toLower_toLower_string]

theorem lowered_ofTask (t : Task) : (ofTask t.lowered).lowered = (ofTask t).lowered := by
  simp only [ofTask, lowered, Option.map_some, toLower_preview_task, List.map_cons, List.map_nil,
    Task.lowered_lowered]

theorem lowered_ofTaskWords (rest : List (List Char)) :
    (ofTaskWords (rest.map asciiLower)).lowered = (ofTaskWords rest).lowered := by
  unfold ofTaskWords
  rw [joinWith_asciiLower rfl, Task.read?_asciiLower]
  cases Task.read? (joinWith ['-'] rest) with
  | none => rfl
  | some t => exact lowered_ofTask t

theorem lowered_ofBatch (text : List Char) :
    (ofBatch (asciiLower text)).lowered = (ofBatch text).lowered := by
  have hslash : ∀ c : Char, isSlash c.toLower = isSlash c :=
    fun c => Bool.eq_iff_iff.2 (by rw [isSlash, isSlash, beq_iff_eq, beq_iff_eq, isMark_slash c])
  have hcommands : batchCommands (asciiLower text) = (batchCommands text).map String.toLower := by
    rw [batchCommands_eq, fields_asciiLower hslash, map_toLower_ofList, batchCommands_eq]
  unfold ofBatch
  dsimp only
  rw [hcommands, List.isEmpty_map, List.length_map]
  by_cases hnone : (batchCommands text).isEmpty = true
  · rw [if_pos hnone, if_pos hnone]
  · rw [if_neg hnone, if_neg hnone]
    simp only [lowered, map_toLower_toLower]

theorem lowered_ofQuery (query : List Char) :
    (ofQuery (asciiLower query)).lowered = (ofQuery query).lowered := by
  simp only [ofQuery, ← toLower_ofList, lowered, Option.map_some, toLower_toLower_string,
    toLower_preview_assistant]

/-- A plain line in small letters is the same task, up to small letters. -/
theorem lowered_ofPlain (defaults : LineDefaults) (text : List Char) :
    (ofPlain defaults (asciiLower text)).lowered = (ofPlain defaults text).lowered := by
  have hparts : ((Task.nameAndMinutes? (asciiLower text)).bind fun p => Task.ofParts? p.1 p.2) =
      ((Task.nameAndMinutes? text).bind fun p => Task.ofParts? p.1 p.2).map Task.lowered := by
    rw [Task.nameAndMinutes?_asciiLower]
    cases Task.nameAndMinutes? text with
    | none => rfl
    | some p => exact Task.ofParts?_asciiLower p.1 p.2
  have hwhole : ∀ minutes, ({ name := String.ofList (asciiLower text), minutes } : Task) =
      Task.lowered { name := String.ofList text, minutes } := by
    intro minutes
    rw [← toLower_ofList]
    rfl
  unfold ofPlain
  dsimp only
  rw [hparts, hwhole]
  cases (Task.nameAndMinutes? text).bind fun p => Task.ofParts? p.1 p.2 with
  | none => exact lowered_ofTask _
  | some t => exact lowered_ofTask t

/-- A head in small letters makes the same command, up to letter case in its texts. -/
theorem lowered_ofHead (defaults : LineDefaults) (now : ClockReading) (head : Head) :
    (ofHead defaults now head.lowered).map lowered = (ofHead defaults now head).map lowered := by
  cases head with
  | bareBlock => rfl
  | block kind rest =>
    cases rest with
    | nil => rfl
    | cons time rest =>
      show (ofBlock now kind (asciiLower time :: rest.map asciiLower)).map lowered =
        (ofBlock now kind (time :: rest)).map lowered
      rw [ofBlock_cons, ofBlock_cons, Slot.read_asciiLower]
      cases Slot.read now time with
      | error fault => rfl
      | ok slot => exact congrArg Except.ok (lowered_blockAt kind time rest slot)
  | event kind rest => exact lowered_ofEvent kind rest
  | routine name =>
    exact congrArg Except.ok (lowered_ofNamed _ _ toLower_preview_routine name)
  | task rest => exact congrArg Except.ok (lowered_ofTaskWords rest)
  | batch text => exact congrArg Except.ok (lowered_ofBatch text)
  | template name =>
    exact congrArg Except.ok (lowered_ofNamed _ _ toLower_preview_template name)
  | assistant query => exact congrArg Except.ok (lowered_ofQuery query)
  | quick action time =>
    show (ofQuick now action (time.map asciiLower)).map lowered =
      (ofQuick now action time).map lowered
    have hslot : quickSlot now (time.map asciiLower) = quickSlot now time := by
      cases time with
      | none => rfl
      | some word => exact Slot.read_asciiLower now word
    rw [ofQuick_eq_map, hslot, ofQuick_eq_map]
  | plain text => exact congrArg Except.ok (lowered_ofPlain defaults text)

/-! ### Lines -/

/-- Every line is, up to letter case in its texts, the command of the line in small letters. -/
theorem lowered_read (defaults : LineDefaults) (now : ClockReading) (line : String) :
    (Command.read defaults now line.toLower).map lowered =
      (Command.read defaults now line).map lowered := by
  have htrim : trim line.toLower.toList = asciiLower (trim line.toList) := by
    rw [toList_toLower, trim_asciiLower]
  by_cases hblank : trim line.toList = []
  · rw [read_of_blank hblank, read_of_blank (by rw [htrim, hblank]; rfl)]
  · have hblank' : trim line.toLower.toList ≠ [] := by
      rw [htrim]
      exact mt asciiLower_eq_nil_iff.1 hblank
    rw [read_eq_bind hblank', read_eq_bind hblank, htrim, Head.read_asciiLower]
    cases Head.read now (trim line.toList) with
    | error fault => rfl
    | ok head => exact lowered_ofHead defaults now head

/-- Letter case carries no meaning: lines that differ in the case of ASCII letters only are read as
one command, once its texts are in small letters, or fail in one way. -/
theorem read_letter_case (defaults : LineDefaults) (now : ClockReading) {line line' : String}
    (h : line.toLower = line'.toLower) :
    (Command.read defaults now line).map lowered =
      (Command.read defaults now line').map lowered := by
  rw [← lowered_read, h, lowered_read]

theorem read_letter_case_standup :
    "EVT Standup 9AM-10am @Nora Weekly".toLower = "evt STANDUP 9am-10AM @nora wEEKLY".toLower ∧
      (Command.read {} ⟨8, 10, 0⟩ "EVT Standup 9AM-10am @Nora Weekly").map lowered =
        (Command.read {} ⟨8, 10, 0⟩ "evt STANDUP 9am-10AM @nora wEEKLY").map lowered := by
  have hsame : "EVT Standup 9AM-10am @Nora Weekly".toLower =
      "evt STANDUP 9am-10AM @nora wEEKLY".toLower := by
    rw [← String.toList_inj, toList_toLower, toList_toLower]
    decide
  exact ⟨hsame, read_letter_case {} ⟨8, 10, 0⟩ hsame⟩

end Command

end Shorthand
