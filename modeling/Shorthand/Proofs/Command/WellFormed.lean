import Shorthand.Proofs.Command.Keyword
import Shorthand.Proofs.Command.Rules
import Shorthand.Proofs.Slot.Grammar
import Shorthand.Proofs.Task.Parts

/-!
What every command that is read has in common, whatever the line: it says whether it is valid and
why not, and it carries what its kind carries and nothing else.
-/

namespace Shorthand

open Text

def Notes.flags (n : Notes) : List Bool := [n.needsTime, n.invalidTime, n.needsDuration]

namespace Command

/-! ## Invariants -/

/-- A valid command restates what it will do, and any other says what is missing. -/
structure Explained (c : Command) : Prop where
  isValid_iff : c.isValid = true ↔ c.preview.isSome = true
  hint_of_invalid : c.isValid = false → c.hint.isSome = true

/-- One thing is said against the time of a block that is not valid, nothing against any other
command, and what is said is so. -/
structure Flagged (blank : Prop) (c : Command) : Prop where
  one_flag : c.kind = .block → c.isValid = false → ¬ blank → c.notes.flags.count true = 1
  no_flag : c.kind ≠ .block ∨ c.isValid = true ∨ blank → c.notes.flags.count true = 0
  no_time : c.notes.needsTime = true ∨ c.notes.invalidTime = true → c.slot = {} ∧ c.tasks = []
  no_end : c.notes.needsDuration = true →
    c.slot.start.isSome = true ∧ c.slot.finish = none ∧ c.slot.length = none

/-- No part of a command is an empty text, and its tasks are well formed. -/
structure Filled (c : Command) : Prop where
  tasks : ∀ t ∈ c.tasks, t.WellFormed
  attendees : ∀ name ∈ c.attendees, name ≠ ""
  title : ∀ title ∈ c.notes.title, title ≠ ""
  commands : ∀ line ∈ c.notes.commands, line ≠ ""

/-- When a command of each kind is valid, what its subtype is, and what it does not carry. -/
def Fits (blank : Prop) (c : Command) : Prop :=
  match c.kind with
  | .block => (c.isValid = true ↔ c.slot.isComplete = true) ∧
      (blank ∧ c.subtype = none ∨ ¬ blank ∧ ∃ kind : BlockKind, c.subtype = some kind.name) ∧
      c.attendees = [] ∧ c.notes.query = none ∧ c.notes.commands = [] ∧ c.notes.title = none
  | .event => c.isValid = true ∧ (∃ kind : EventKind, c.subtype = some kind.name) ∧
      c.tasks = [] ∧ c.notes = { title := c.notes.title }
  | .quick => c.isValid = true ∧ (∃ action : QuickAction, c.subtype = some action.name) ∧
      c.tasks = [] ∧ c.attendees = [] ∧ c.notes = {}
  | .routine | .template => c.isValid = true ∧ c.subtype ≠ some "" ∧
      c.slot = {} ∧ c.tasks = [] ∧ c.attendees = [] ∧ c.notes = {}
  | .task => (c.isValid = true ↔ c.tasks.length = 1) ∧ (c.isValid = false → c.tasks = []) ∧
      c.subtype = none ∧ c.slot = {} ∧ c.attendees = [] ∧ c.notes = {}
  | .batch => (c.isValid = true ↔ c.notes.commands ≠ []) ∧ c.subtype = none ∧
      c.slot = {} ∧ c.tasks = [] ∧ c.attendees = [] ∧ c.notes = { commands := c.notes.commands }
  | .assistant => c.isValid = true ∧ c.notes.query.isSome = true ∧ c.subtype = none ∧
      c.slot = {} ∧ c.tasks = [] ∧ c.attendees = [] ∧ c.notes = { query := c.notes.query }

/-- A command that a line can be read as; `blank` says that the line is blank. -/
structure WellFormed (blank : Prop) (c : Command) : Prop
    extends Explained c, Flagged blank c, Filled c where
  fits : Fits blank c

section Parts

variable {blank : Prop} {c : Command}

theorem Explained.of_valid (hvalid : c.isValid = true) (hpreview : c.preview.isSome = true) :
    Explained c :=
  ⟨iff_of_true hvalid hpreview, fun h => by rw [hvalid] at h; cases h⟩

theorem Explained.of_invalid (hvalid : c.isValid = false) (hpreview : c.preview = none)
    (hhint : c.hint.isSome = true) : Explained c :=
  ⟨by rw [hvalid, hpreview]; decide, fun _ => hhint⟩

/-- Nothing is said against a command that is no block or is valid. -/
theorem Flagged.of_no_flag (hkind : c.kind ≠ .block ∨ c.isValid = true)
    (hflags : c.notes.flags = [false, false, false]) : Flagged blank c := by
  have h : c.notes.needsTime = false ∧ c.notes.invalidTime = false ∧
      c.notes.needsDuration = false := by
    simpa [Notes.flags] using hflags
  constructor
  · intro hblock hinvalid
    rcases hkind with hkind | hvalid
    · exact absurd hblock hkind
    · rw [hvalid] at hinvalid
      cases hinvalid
  · intro _
    rw [hflags]
    decide
  · rw [h.1, h.2.1]
    rintro (⟨⟨⟩⟩ | ⟨⟨⟩⟩)
  · rw [h.2.2]
    rintro ⟨⟩

/-- What is said against a block that is not valid. -/
theorem Flagged.of_one_flag (hblank : ¬ blank) (hkind : c.kind = .block)
    (hvalid : c.isValid = false) (hone : c.notes.flags.count true = 1)
    (hno_time : c.notes.needsTime = true ∨ c.notes.invalidTime = true → c.slot = {} ∧ c.tasks = [])
    (hno_end : c.notes.needsDuration = true →
      c.slot.start.isSome = true ∧ c.slot.finish = none ∧ c.slot.length = none) :
    Flagged blank c := by
  refine ⟨fun _ _ _ => hone, ?_, hno_time, hno_end⟩
  rintro (hne | htrue | h)
  · exact absurd hkind hne
  · rw [hvalid] at htrue
    cases htrue
  · exact absurd h hblank

end Parts

/-! ## Rules -/

section Rules

variable {blank : Prop} {now : ClockReading}

theorem wellFormed_blank (hblank : blank) : WellFormed blank Command.blank where
  toExplained := .of_invalid rfl rfl rfl
  toFlagged := {
    one_flag := fun _ _ h => absurd hblank h
    no_flag := fun _ => rfl
    no_time := by rintro (⟨⟨⟩⟩ | ⟨⟨⟩⟩)
    no_end := nofun }
  toFilled := ⟨nofun, nofun, nofun, nofun⟩
  fits := ⟨by decide, Or.inl ⟨hblank, rfl⟩, rfl, rfl, rfl, rfl⟩

theorem wellFormed_bareBlock (defaults : LineDefaults) (hblank : ¬ blank) :
    WellFormed blank (bareBlock defaults now) where
  toExplained := .of_valid rfl rfl
  toFlagged := .of_no_flag (Or.inr rfl) rfl
  toFilled := ⟨nofun, nofun, nofun, nofun⟩
  fits := ⟨iff_of_true rfl rfl, Or.inr ⟨hblank, .deepWork, rfl⟩, rfl, rfl, rfl, rfl⟩

/-- A block is well formed whatever its words are. -/
theorem wellFormed_of_ofBlock {kind : BlockKind} {rest : List (List Char)} {c : Command}
    (hblank : ¬ blank) (h : ofBlock now kind rest = .ok c) : WellFormed blank c := by
  have hkind : blank ∧ some kind.name = none ∨
      ¬ blank ∧ ∃ k : BlockKind, some kind.name = some k.name := Or.inr ⟨hblank, kind, rfl⟩
  cases rest with
  | nil =>
    cases h
    exact {
      toExplained := .of_invalid rfl rfl rfl
      toFlagged := .of_one_flag hblank rfl rfl rfl (fun _ => ⟨rfl, rfl⟩) nofun
      toFilled := ⟨nofun, nofun, nofun, nofun⟩
      fits := ⟨iff_of_false nofun nofun, hkind, rfl, rfl, rfl, rfl⟩ }
  | cons time rest =>
    rw [ofBlock_cons] at h
    obtain ⟨slot, hread, rfl⟩ := map_eq_ok_iff.1 h
    have htasks : ∀ t ∈ rest.filterMap Task.read?, t.WellFormed := by
      intro t ht
      obtain ⟨token, -, htoken⟩ := List.mem_filterMap.1 ht
      exact Task.wellFormed_of_token htoken
    -- A word that is no time, a slot that is complete, and one that lacks its end.
    unfold blockAt
    split
    · exact {
        toExplained := .of_invalid rfl rfl rfl
        toFlagged := .of_one_flag hblank rfl rfl rfl (fun _ => ⟨rfl, rfl⟩) nofun
        toFilled := ⟨nofun, nofun, nofun, nofun⟩
        fits := ⟨iff_of_false nofun nofun, hkind, rfl, rfl, rfl, rfl⟩ }
    · rename_i hslot
      have hstart := Slot.isSome_start_of_read hread (by simpa using hslot)
      split
      · rename_i hcomplete
        exact {
          toExplained := .of_valid rfl rfl
          toFlagged := .of_no_flag (Or.inr rfl) rfl
          toFilled := ⟨htasks, nofun, nofun, nofun⟩
          fits := ⟨iff_of_true rfl hcomplete, hkind, rfl, rfl, rfl, rfl⟩ }
      · rename_i hcomplete
        have hopen : slot.finish = none ∧ slot.length = none := by
          simpa [Slot.isComplete, hstart] using hcomplete
        exact {
          toExplained := .of_invalid rfl rfl rfl
          toFlagged := .of_one_flag hblank rfl rfl rfl (by rintro (⟨⟨⟩⟩ | ⟨⟨⟩⟩))
            fun _ => ⟨hstart, hopen⟩
          toFilled := ⟨htasks, nofun, nofun, nofun⟩
          fits := ⟨iff_of_false nofun hcomplete, hkind, rfl, rfl, rfl, rfl⟩ }

structure EventParts.Filled (parts : EventParts) : Prop where
  attendees : ∀ name ∈ parts.attendees, name ≠ []
  title : ∀ w ∈ parts.title, w ≠ []

theorem EventParts.Filled.titled {parts : EventParts} {w : List Char} (h : parts.Filled)
    (hw : w ≠ []) : (parts.titled w).Filled :=
  ⟨h.attendees, List.forall_mem_cons.2 ⟨hw, h.title⟩⟩

theorem EventParts.Filled.joined {parts : EventParts} (h : parts.Filled) (name : List Char) :
    (parts.joined name).Filled := by
  unfold EventParts.joined
  split
  · exact h
  · rename_i hname
    exact ⟨List.forall_mem_cons.2 ⟨by simpa using hname, h.attendees⟩, h.title⟩

/-- The parts of an event hold no empty text. -/
theorem EventParts.filled_of_read {slot : Slot} {ws : List (List Char)} {parts : EventParts}
    (hws : ∀ w ∈ ws, w ≠ []) (h : EventParts.read now slot ws = .ok parts) : parts.Filled := by
  induction ws generalizing slot parts with
  | nil =>
    cases h
    exact ⟨nofun, nofun⟩
  | cons w ws ih =>
    obtain ⟨hw, htail⟩ := List.forall_mem_cons.1 hws
    by_cases hat : w.head? = some '@'
    · obtain ⟨name, rfl⟩ := List.head?_eq_some_iff.1 hat
      rw [read_name] at h
      obtain ⟨rest, hrest, rfl⟩ := map_eq_ok_iff.1 h
      exact (ih htail hrest).joined name
    · by_cases hstart : slot.start = none
      · rw [read_word hat hstart] at h
        obtain ⟨time, -, h⟩ := bind_eq_ok_iff.1 h
        split at h
        · obtain ⟨rest, hrest, rfl⟩ := map_eq_ok_iff.1 h
          exact (ih htail hrest).titled hw
        · exact ih htail h
      · rw [read_word_of_isSome hat (Option.isSome_iff_ne_none.2 hstart)] at h
        obtain ⟨rest, hrest, rfl⟩ := map_eq_ok_iff.1 h
        exact (ih htail hrest).titled hw

/-- An event is well formed whatever its words are. -/
theorem wellFormed_of_ofEvent {kind : EventKind} {rest : List (List Char)} {c : Command}
    (hrest : ∀ w ∈ rest, w ≠ []) (h : ofEvent now kind rest = .ok c) : WellFormed blank c := by
  rw [ofEvent_eq_map] at h
  obtain ⟨parts, hparts, rfl⟩ := map_eq_ok_iff.1 h
  have hfilled := EventParts.filled_of_read hrest hparts
  exact {
    toExplained := .of_valid rfl rfl
    toFlagged := .of_no_flag (Or.inr rfl) rfl
    toFilled := {
      tasks := nofun
      attendees := by
        intro name hname
        obtain ⟨cs, hcs, rfl⟩ := List.mem_map.1 hname
        exact mt String.ofList_eq_empty_iff.1 (hfilled.attendees cs hcs)
      title := by
        intro title htitle
        dsimp only at htitle
        split at htitle
        · cases htitle
        · rename_i hne
          cases htitle
          exact mt String.ofList_eq_empty_iff.1
            (joinWith_ne_nil (by simpa using hne) hfilled.title)
      commands := nofun }
    fits := ⟨rfl, ⟨kind, rfl⟩, rfl, rfl⟩ }

theorem wellFormed_ofNamed {kind : CommandKind} (hkind : kind = .routine ∨ kind = .template)
    (choose : String) (preview : String → String) (name : List (List Char)) :
    WellFormed blank (ofNamed kind choose preview name) := by
  unfold ofNamed
  dsimp only
  split
  · exact {
      toExplained := .of_valid rfl rfl
      toFlagged := .of_no_flag (Or.inr rfl) rfl
      toFilled := ⟨nofun, nofun, nofun, nofun⟩
      fits := by
        rcases hkind with rfl | rfl
        · exact ⟨rfl, nofun, rfl, rfl, rfl, rfl⟩
        · exact ⟨rfl, nofun, rfl, rfl, rfl, rfl⟩ }
  · rename_i hname
    have hsubtype : some (String.ofList (spaced name)) ≠ some "" := by
      intro h
      exact hname (by rw [Option.some.inj h]; rfl)
    exact {
      toExplained := .of_valid rfl rfl
      toFlagged := .of_no_flag (Or.inr rfl) rfl
      toFilled := ⟨nofun, nofun, nofun, nofun⟩
      fits := by
        rcases hkind with rfl | rfl
        · exact ⟨rfl, hsubtype, rfl, rfl, rfl, rfl⟩
        · exact ⟨rfl, hsubtype, rfl, rfl, rfl, rfl⟩ }

theorem wellFormed_ofTask {t : Task} (ht : t.WellFormed) : WellFormed blank (ofTask t) where
  toExplained := .of_valid rfl rfl
  toFlagged := .of_no_flag (Or.inr rfl) rfl
  toFilled := ⟨by simpa [ofTask] using ht, nofun, nofun, nofun⟩
  fits := ⟨iff_of_true rfl rfl, nofun, rfl, rfl, rfl, rfl⟩

theorem wellFormed_ofTaskWords (rest : List (List Char)) :
    WellFormed blank (ofTaskWords rest) := by
  unfold ofTaskWords
  split
  · rename_i t ht
    exact wellFormed_ofTask (Task.wellFormed_of_token ht)
  · exact {
      toExplained := .of_invalid rfl rfl rfl
      toFlagged := .of_no_flag (Or.inl nofun) rfl
      toFilled := ⟨nofun, nofun, nofun, nofun⟩
      fits := ⟨iff_of_false nofun nofun, fun _ => rfl, rfl, rfl, rfl, rfl⟩ }

/-- A plain line that is not blank is a well-formed task. -/
theorem wellFormed_ofPlain (defaults : LineDefaults) {text : List Char} (htext : text ≠ []) :
    WellFormed blank (ofPlain defaults text) := by
  unfold ofPlain
  split
  · rename_i t ht
    obtain ⟨⟨name, minutes⟩, -, ht⟩ := Option.bind_eq_some_iff.1 ht
    exact wellFormed_ofTask (Task.wellFormed_of_ofParts ht)
  · apply wellFormed_ofTask
    have hlt : defaults.taskMinutes.toNat < 4294967296 := defaults.taskMinutes.toNat_lt
    refine ⟨mt String.ofList_eq_empty_iff.1 htext, ?_, ?_, nofun⟩
    · show 0 < max defaults.taskMinutes.toNat 1
      omega
    · show max defaults.taskMinutes.toNat 1 ≤ 4294967295
      omega

theorem wellFormed_ofBatch (text : List Char) : WellFormed blank (ofBatch text) := by
  have hcommands : ∀ line ∈ batchCommands text, line ≠ "" := by
    intro line hline
    obtain ⟨piece, hpiece, rfl⟩ := List.mem_map.1 hline
    exact mt String.ofList_eq_empty_iff.1 (by simpa using (List.mem_filter.1 hpiece).2)
  unfold ofBatch
  dsimp only
  split
  · exact {
      toExplained := .of_invalid rfl rfl rfl
      toFlagged := .of_no_flag (Or.inl nofun) rfl
      toFilled := ⟨nofun, nofun, nofun, nofun⟩
      fits := ⟨iff_of_false nofun fun h => h rfl, rfl, rfl, rfl, rfl, rfl⟩ }
  · rename_i hne
    exact {
      toExplained := .of_valid rfl rfl
      toFlagged := .of_no_flag (Or.inr rfl) rfl
      toFilled := ⟨nofun, nofun, nofun, hcommands⟩
      fits := ⟨iff_of_true rfl (by simpa using hne), rfl, rfl, rfl, rfl, rfl⟩ }

theorem wellFormed_ofQuery (query : List Char) : WellFormed blank (ofQuery query) where
  toExplained := .of_valid rfl rfl
  toFlagged := .of_no_flag (Or.inr rfl) rfl
  toFilled := ⟨nofun, nofun, nofun, nofun⟩
  fits := ⟨rfl, rfl, rfl, rfl, rfl, rfl, rfl⟩

theorem wellFormed_of_ofQuick {action : QuickAction} {time : Option (List Char)} {c : Command}
    (h : ofQuick now action time = .ok c) : WellFormed blank c := by
  rw [ofQuick_eq_map] at h
  obtain ⟨slot, -, rfl⟩ := map_eq_ok_iff.1 h
  exact {
    toExplained := .of_valid rfl rfl
    toFlagged := .of_no_flag (Or.inr rfl) rfl
    toFilled := ⟨nofun, nofun, nofun, nofun⟩
    fits := ⟨rfl, ⟨action, rfl⟩, rfl, rfl, rfl⟩ }

end Rules

/-! ## Lines -/

variable {defaults : LineDefaults} {now : ClockReading}

/-- Whatever its head asks for, the command of a line that is not blank is well formed. -/
theorem wellFormed_of_ofHead {blank : Prop} {head : Head} {c : Command} (hblank : ¬ blank)
    (hleft : ∀ w ∈ head.left, w ≠ []) (hplain : ∀ text, head = .plain text → text ≠ [])
    (h : ofHead defaults now head = .ok c) : WellFormed blank c := by
  -- One lemma for the rule of each head.
  cases head with
  | bareBlock =>
    cases h
    exact wellFormed_bareBlock defaults hblank
  | block kind rest => exact wellFormed_of_ofBlock hblank h
  | event kind rest => exact wellFormed_of_ofEvent hleft h
  | routine name =>
    cases h
    exact wellFormed_ofNamed (Or.inl rfl) ..
  | task rest =>
    cases h
    exact wellFormed_ofTaskWords rest
  | batch text =>
    cases h
    exact wellFormed_ofBatch text
  | template name =>
    cases h
    exact wellFormed_ofNamed (Or.inr rfl) ..
  | assistant query =>
    cases h
    exact wellFormed_ofQuery query
  | quick action time => exact wellFormed_of_ofQuick h
  | plain text =>
    cases h
    exact wellFormed_ofPlain defaults (hplain text rfl)

/-- Every line that can be read is a well-formed command. -/
theorem wellFormed_of_read {line : String} {c : Command}
    (hread : Command.read defaults now line = .ok c) :
    WellFormed (trim line.toList = []) c := by
  by_cases hblank : trim line.toList = []
  · rw [read_of_blank hblank] at hread
    cases hread
    exact wellFormed_blank hblank
  · obtain ⟨first, rest, hwords⟩ := exists_words_trim hblank
    rw [read_eq_bind hblank] at hread
    obtain ⟨head, hhead, hc⟩ := bind_eq_ok_iff.1 hread
    have hrest : ∀ w ∈ rest, w ≠ [] := fun w hw =>
      ne_nil_of_mem_words (hwords ▸ List.mem_cons_of_mem first hw)
    refine wellFormed_of_ofHead hblank ?_ ?_ hc
    -- All words that are left are words of the line, except that `now+1h` is left in lower case.
    · cases Head.reads_of_read hwords hhead with
      | nowFor hplus =>
        intro w hw
        obtain rfl : w = lower first := List.mem_singleton.1 hw
        obtain ⟨tail, htail⟩ := hplus
        rw [← htail]
        exact List.cons_ne_nil _ _
      | slash => nofun
      | keyword => exact fun w hw => hrest w (Keyword.left_head_subset _ _ _ hw)
      | plain => nofun
    · rintro text rfl
      generalize hplain : Head.plain text = head at hhead
      cases Head.reads_of_read hwords hhead with
      | keyword => exact absurd hplain.symm (Keyword.head_ne_plain _ _ _ _)
      | plain =>
        cases hplain
        exact hblank
      | _ => cases hplain

theorem wellFormed_blk_admin :
    ∃ c, Command.read {} ⟨8, 10, 0⟩ "blk admin" = .ok c ∧ c.isValid = false ∧
      WellFormed (trim "blk admin".toList = []) c := by
  have hread : Command.read {} ⟨8, 10, 0⟩ "blk admin" = .ok
      { kind := .block, subtype := some "admin", notes := { needsTime := true }
        hint := some (Hint.needsTime .admin) } := by
    decide
  exact ⟨_, hread, rfl, wellFormed_of_read hread⟩

end Command

end Shorthand
