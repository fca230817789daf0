import Shorthand.Proofs.Command.Rules

/-!
Previews and the commands they belong to. `Restates` says in words of its own which sentence tells
the fields of a command, and `Command.preview_iff_restates` that the preview of every command that
is read is this sentence.
-/

namespace Shorthand

open Text

/-! ## What is told of the fields -/

/-- How far a slot reaches from its start: to its end if that is known, and for its length
otherwise. -/
inductive TellsReach (slot : Slot) : String → Prop
  | finish {t : ClockTime} (ht : slot.finish = some t) : TellsReach slot (" to " ++ t.toText)
  | length {n : Int} (ht : slot.finish = none) (hn : slot.length = some n) :
      TellsReach slot (" for " ++ integer n ++ " minutes")

/-- When an event takes place. Where only its start is known, nothing more is told. -/
inductive TellsTime (slot : Slot) : String → Prop
  | unscheduled (hstart : slot.start = none) : TellsTime slot " (time to be scheduled)"
  | start {t : ClockTime} (hstart : slot.start = some t) (hfinish : slot.finish = none)
      (hlength : slot.length = none) : TellsTime slot (" at " ++ t.toText)
  | reach {t : ClockTime} {s : String} (hstart : slot.start = some t) (hs : TellsReach slot s) :
      TellsTime slot (" at " ++ t.toText ++ s)

/-- How many there are of something; a single one is told in the singular. -/
inductive TellsCount (noun : String) : Nat → String → Prop
  | one : TellsCount noun 1 ("1 " ++ noun)
  | many {n : Nat} (hn : n ≠ 1) : TellsCount noun n (number n ++ " " ++ noun ++ "s")

inductive TellsTasks : List Task → String → Prop
  | nothing : TellsTasks [] ""
  | tasks {ts : List Task} {s : String} (hne : ts ≠ []) (hs : TellsCount "task" ts.length s) :
      TellsTasks ts (" with " ++ s)

inductive TellsTitle : Option String → String → Prop
  | untitled : TellsTitle none ""
  | titled (title : String) : TellsTitle (some title) (": " ++ title)

inductive TellsPeople : List String → String → Prop
  | nobody : TellsPeople [] ""
  | people {names : List String} (hne : names ≠ []) :
      TellsPeople names (" with " ++ String.intercalate ", " names)

/-- The sentence tells what a command will do. It is made from the fields of the command and
nothing else. -/
def Restates (c : Command) (sentence : String) : Prop :=
  match c.kind with
  | .block => ∃ kind t reach tasks, c.subtype = some kind ∧ c.slot.start = some t ∧
      TellsReach c.slot reach ∧ TellsTasks c.tasks tasks ∧
      sentence = kind ++ " block from " ++ t.toText ++ reach ++ tasks
  | .event => ∃ kind title time people, c.subtype = some kind ∧ TellsTitle c.notes.title title ∧
      TellsTime c.slot time ∧ TellsPeople c.attendees people ∧
      sentence = kind ++ title ++ time ++ people
  | .task => ∃ t, c.tasks = [t] ∧
      sentence = "Task: " ++ t.name ++ " (" ++ number t.minutes ++ " minutes)"
  | .batch => ∃ count, TellsCount "command" c.notes.commands.length count ∧
      sentence = "Batch of " ++ count
  | .routine => c.subtype = none ∧ sentence = "Choose a routine" ∨
      ∃ name, c.subtype = some name ∧ sentence = "Start routine '" ++ name ++ "'"
  | .template => c.subtype = none ∧ sentence = "Choose a template" ∨
      ∃ name, c.subtype = some name ∧ sentence = "Apply template '" ++ name ++ "'"
  | .assistant => ∃ query, c.notes.query = some query ∧
      (query = "" ∧ sentence = "Open the assistant" ∨
        query ≠ "" ∧ sentence = "Ask the assistant: " ++ query)
  | .quick => ∃ action : QuickAction, c.subtype = some action.name ∧
      (c.slot.length = none ∧ sentence = action.description ∨
        ∃ n, c.slot.length = some n ∧
          sentence = action.description ++ " for " ++ integer n ++ " minutes")

/-! ## One sentence at most -/

section Unique

variable {slot : Slot} {s t : String}

theorem TellsReach.unique (h : TellsReach slot s) (h' : TellsReach slot t) : s = t := by
  cases h with
  | finish hs =>
    cases h' with
    | finish ht => rw [Option.some.inj (hs.symm.trans ht)]
    | length ht => rw [hs] at ht; cases ht
  | length hs hn =>
    cases h' with
    | finish ht => rw [hs] at ht; cases ht
    | length _ hn' => rw [Option.some.inj (hn.symm.trans hn')]

/-- A slot that reaches somewhere has an end or a length. -/
theorem TellsReach.not_open (h : TellsReach slot s) (hfinish : slot.finish = none)
    (hlength : slot.length = none) : False := by
  cases h with
  | finish ht => rw [hfinish] at ht; cases ht
  | length _ hn => rw [hlength] at hn; cases hn

theorem TellsTime.unique (h : TellsTime slot s) (h' : TellsTime slot t) : s = t := by
  cases h with
  | unscheduled hs =>
    cases h' with
    | unscheduled => rfl
    | start ht | reach ht => rw [hs] at ht; cases ht
  | start hs hfinish hlength =>
    cases h' with
    | unscheduled ht => rw [hs] at ht; cases ht
    | start ht => rw [Option.some.inj (hs.symm.trans ht)]
    | reach _ hreach => exact (hreach.not_open hfinish hlength).elim
  | reach hs hreach =>
    cases h' with
    | unscheduled ht => rw [hs] at ht; cases ht
    | start _ hfinish hlength => exact (hreach.not_open hfinish hlength).elim
    | reach ht hreach' => rw [Option.some.inj (hs.symm.trans ht), hreach.unique hreach']

theorem TellsCount.unique {noun : String} {n : Nat} (h : TellsCount noun n s)
    (h' : TellsCount noun n t) : s = t := by
  cases h with
  | one =>
    cases h' with
    | one => rfl
    | many hn => exact absurd rfl hn
  | many hn =>
    cases h' with
    | one => exact absurd rfl hn
    | many => rfl

theorem TellsTasks.unique {ts : List Task} (h : TellsTasks ts s) (h' : TellsTasks ts t) :
    s = t := by
  cases h with
  | nothing =>
    cases h' with
    | nothing => rfl
    | tasks hne => exact absurd rfl hne
  | tasks hne hs =>
    cases h' with
    | nothing => exact absurd rfl hne
    | tasks _ ht => rw [hs.unique ht]

theorem TellsTitle.unique {title : Option String} (h : TellsTitle title s)
    (h' : TellsTitle title t) : s = t := by
  cases h <;> cases h' <;> rfl

theorem TellsPeople.unique {names : List String} (h : TellsPeople names s)
    (h' : TellsPeople names t) : s = t := by
  cases h with
  | nobody =>
    cases h' with
    | nobody => rfl
    | people hne => exact absurd rfl hne
  | people hne =>
    cases h' with
    | nobody => exact absurd rfl hne
    | people => rfl

/-- The fields of a command leave no choice of the sentence. -/
theorem Restates.unique {c : Command} (h : Restates c s) (h' : Restates c t) : s = t := by
  unfold Restates at h h'
  cases hkind : c.kind with
  | block =>
    simp only [hkind] at h h'
    obtain ⟨kind, start, reach, tasks, hsub, hstart, hreach, htasks, rfl⟩ := h
    obtain ⟨kind', start', reach', tasks', hsub', hstart', hreach', htasks', rfl⟩ := h'
    rw [Option.some.inj (hsub.symm.trans hsub'), Option.some.inj (hstart.symm.trans hstart'),
      hreach.unique hreach', htasks.unique htasks']
  | event =>
    simp only [hkind] at h h'
    obtain ⟨kind, title, time, people, hsub, htitle, htime, hpeople, rfl⟩ := h
    obtain ⟨kind', title', time', people', hsub', htitle', htime', hpeople', rfl⟩ := h'
    rw [Option.some.inj (hsub.symm.trans hsub'), htitle.unique htitle', htime.unique htime',
      hpeople.unique hpeople']
  | task =>
    simp only [hkind] at h h'
    obtain ⟨task, htask, rfl⟩ := h
    obtain ⟨task', htask', rfl⟩ := h'
    rw [List.singleton_inj.1 (htask.symm.trans htask')]
  | batch =>
    simp only [hkind] at h h'
    obtain ⟨count, hcount, rfl⟩ := h
    obtain ⟨count', hcount', rfl⟩ := h'
    rw [hcount.unique hcount']
  | quick =>
    simp only [hkind] at h h'
    obtain ⟨action, hsub, hlength⟩ := h
    obtain ⟨action', hsub', hlength'⟩ := h'
    -- An action is found again by its name.
    have hname : action.name = action'.name := Option.some.inj (hsub.symm.trans hsub')
    have haction : some action = some action' := by
      rw [← QuickAction.ofName?_name, hname, QuickAction.ofName?_name]
    obtain rfl := Option.some.inj haction
    rcases hlength with ⟨hnone, rfl⟩ | ⟨n, hn, rfl⟩ <;>
      rcases hlength' with ⟨hnone', rfl⟩ | ⟨n', hn', rfl⟩ <;> simp_all
  | routine | template | assistant =>
    simp only [hkind] at h h'
    grind

end Unique

/-! ## Rules -/

namespace Command

variable {defaults : LineDefaults} {now : ClockReading} {c : Command}

/-- A valid command has the preview that restates it, and any other has none. -/
inductive Previewed (c : Command) : Prop
  | valid {s : String} (hvalid : c.isValid = true) (hs : c.preview = some s) (h : Restates c s)
  | invalid (hvalid : c.isValid = false) (hs : c.preview = none) (hkind : c.kind ≠ .event)

/-- A complete slot is told by its start and how far it reaches. -/
theorem exists_tellsReach {slot : Slot} (h : slot.isComplete = true) :
    ∃ t reach, slot.start = some t ∧ TellsReach slot reach ∧
      ∀ lead, Preview.time lead slot = lead ++ " " ++ t.toText ++ reach := by
  obtain ⟨start, finish, length⟩ := slot
  cases start with
  | none => cases h
  | some t =>
    cases finish with
    | some u => exact ⟨t, _, rfl, .finish rfl, fun lead => rfl⟩
    | none =>
      cases length with
      | some n => exact ⟨t, _, rfl, .length rfl rfl, fun lead => rfl⟩
      | none => cases h

/-- What is said of the time of an event tells it. -/
theorem tellsTime (slot : Slot) :
    TellsTime slot
      (if slot.start.isSome then Preview.time " at" slot else " (time to be scheduled)") := by
  cases hstart : slot.start with
  | none => exact .unscheduled hstart
  | some t =>
    by_cases hcomplete : slot.isComplete = true
    · obtain ⟨u, reach, hu, hreach, htime⟩ := exists_tellsReach hcomplete
      have heq : Preview.time " at" slot = " at " ++ u.toText ++ reach := htime " at"
      rw [Option.isSome_some, if_pos rfl, heq]
      exact .reach hu hreach
    · have hopen : slot.finish = none ∧ slot.length = none := by
        simpa [Slot.isComplete, hstart] using hcomplete
      have heq : Preview.time " at" slot = " at " ++ t.toText := by
        simp [Preview.time, hstart, hopen]
      rw [Option.isSome_some, if_pos rfl, heq]
      exact .start hstart hopen.1 hopen.2

theorem tellsCount (noun : String) (n : Nat) : TellsCount noun n (Preview.counted n noun) := by
  unfold Preview.counted
  by_cases hn : n = 1
  · subst hn
    exact .one
  · rw [if_neg hn]
    exact .many hn

theorem tellsTasks (tasks : List Task) :
    TellsTasks tasks
      (if tasks.length = 0 then "" else " with " ++ Preview.counted tasks.length "task") := by
  cases tasks with
  | nil => exact .nothing
  | cons t tasks => exact .tasks (List.cons_ne_nil t tasks) (tellsCount "task" _)

theorem tellsPeople (names : List String) :
    TellsPeople names
      (if names.isEmpty then "" else " with " ++ String.intercalate ", " names) := by
  cases names with
  | nil => exact .nobody
  | cons name names => exact .people (List.cons_ne_nil name names)

/-- The preview of a block restates it, if its slot is complete. -/
theorem restates_block {kind : BlockKind} (hkind : c.kind = .block)
    (hsub : c.subtype = some kind.name) (h : c.slot.isComplete = true) :
    Restates c (Preview.block kind c.slot c.tasks.length) := by
  obtain ⟨t, reach, ht, hreach, htime⟩ := exists_tellsReach h
  simp only [Restates, hkind]
  refine ⟨kind.name, t, reach, _, hsub, ht, hreach, tellsTasks c.tasks, ?_⟩
  rw [Preview.block, htime]
  simp only [String.append_assoc]
  rfl

/-- A block has the preview that restates it if it is valid, and none otherwise. -/
theorem previewed_of_ofBlock {kind : BlockKind} {rest : List (List Char)}
    (h : ofBlock now kind rest = .ok c) : Previewed c := by
  cases rest with
  | nil =>
    cases h
    exact .invalid rfl rfl nofun
  | cons time rest =>
    rw [ofBlock_cons] at h
    obtain ⟨slot, -, rfl⟩ := map_eq_ok_iff.1 h
    -- Of the three blocks that a word can lead to, only the one with a complete slot is valid.
    unfold blockAt
    split
    · exact .invalid rfl rfl nofun
    · split
      · rename_i hcomplete
        exact .valid rfl rfl (restates_block rfl rfl hcomplete)
      · exact .invalid rfl rfl nofun

/-- An event has the preview that restates it, whether or not it has a time. -/
theorem previewed_of_ofEvent {kind : EventKind} {rest : List (List Char)}
    (h : ofEvent now kind rest = .ok c) : Previewed c := by
  rw [ofEvent_eq_map] at h
  obtain ⟨parts, -, rfl⟩ := map_eq_ok_iff.1 h
  refine .valid rfl rfl ⟨kind.name, _, _, _, rfl, ?_, tellsTime parts.slot, tellsPeople _, rfl⟩
  dsimp only
  split
  · exact .untitled
  · exact .titled _

theorem previewed_ofNamed {kind : CommandKind} {choose : String} {preview : String → String}
    (name : List (List Char))
    (hkind : kind = .routine ∧ preview = Preview.routine ∨
      kind = .template ∧ preview = Preview.template) :
    Previewed (ofNamed kind choose preview name) := by
  unfold ofNamed
  dsimp only
  by_cases hname : (String.ofList (spaced name)).isEmpty = true
  · rw [if_pos hname]
    rcases hkind with ⟨rfl, rfl⟩ | ⟨rfl, rfl⟩
    · refine .valid rfl rfl (Or.inl ⟨rfl, ?_⟩)
      rw [Preview.routine, if_pos hname]
    · refine .valid rfl rfl (Or.inl ⟨rfl, ?_⟩)
      rw [Preview.template, if_pos hname]
  · rw [if_neg hname]
    rcases hkind with ⟨rfl, rfl⟩ | ⟨rfl, rfl⟩
    · refine .valid rfl rfl (Or.inr ⟨_, rfl, ?_⟩)
      rw [Preview.routine, if_neg hname]
    · refine .valid rfl rfl (Or.inr ⟨_, rfl, ?_⟩)
      rw [Preview.template, if_neg hname]

theorem previewed_ofTask (t : Task) : Previewed (ofTask t) :=
  .valid rfl rfl ⟨t, rfl, rfl⟩

theorem previewed_ofTaskWords (rest : List (List Char)) : Previewed (ofTaskWords rest) := by
  unfold ofTaskWords
  split
  · exact previewed_ofTask _
  · exact .invalid rfl rfl nofun

theorem previewed_ofPlain (defaults : LineDefaults) (text : List Char) :
    Previewed (ofPlain defaults text) := by
  unfold ofPlain
  split
  · exact previewed_ofTask _
  · exact previewed_ofTask _

theorem previewed_ofBatch (text : List Char) : Previewed (ofBatch text) := by
  unfold ofBatch
  dsimp only
  split
  · exact .invalid rfl rfl nofun
  · exact .valid rfl rfl ⟨_, tellsCount "command" _, rfl⟩

theorem previewed_ofQuery (query : List Char) : Previewed (ofQuery query) := by
  refine .valid rfl rfl ⟨String.ofList query, rfl, ?_⟩
  unfold Preview.assistant
  split
  · rename_i hquery
    exact Or.inl ⟨String.isEmpty_iff.1 hquery, rfl⟩
  · rename_i hquery
    exact Or.inr ⟨mt String.isEmpty_iff.2 hquery, rfl⟩

theorem previewed_of_ofQuick {action : QuickAction} {time : Option (List Char)}
    (h : ofQuick now action time = .ok c) : Previewed c := by
  rw [ofQuick_eq_map] at h
  obtain ⟨slot, -, rfl⟩ := map_eq_ok_iff.1 h
  refine .valid rfl rfl ⟨action, rfl, ?_⟩
  cases hlength : slot.length with
  | none => exact Or.inl ⟨rfl, String.append_empty⟩
  | some n => exact Or.inr ⟨n, rfl, by simp only [Preview.quick, String.append_assoc]⟩

/-! ## Lines -/

theorem previewed_of_ofHead {head : Head} (h : ofHead defaults now head = .ok c) :
    Previewed c := by
  cases head with
  | bareBlock =>
    cases h
    exact .valid rfl rfl (@restates_block _ .deepWork rfl rfl rfl)
  | block kind rest => exact previewed_of_ofBlock h
  | event kind rest => exact previewed_of_ofEvent h
  | routine name =>
    cases h
    exact previewed_ofNamed name (Or.inl ⟨rfl, rfl⟩)
  | task rest =>
    cases h
    exact previewed_ofTaskWords rest
  | batch text =>
    cases h
    exact previewed_ofBatch text
  | template name =>
    cases h
    exact previewed_ofNamed name (Or.inr ⟨rfl, rfl⟩)
  | assistant query =>
    cases h
    exact previewed_ofQuery query
  | quick action time => exact previewed_of_ofQuick h
  | plain text =>
    cases h
    exact previewed_ofPlain defaults text

/-- Whatever line is read, the command has the preview that restates it if it is valid, and none
otherwise. -/
theorem previewed_of_read {line : String} (hread : Command.read defaults now line = .ok c) :
    Previewed c := by
  by_cases hblank : trim line.toList = []
  · rw [read_of_blank hblank] at hread
    cases hread
    exact .invalid rfl rfl nofun
  · rw [read_eq_bind hblank] at hread
    obtain ⟨head, -, hc⟩ := bind_eq_ok_iff.1 hread
    exact previewed_of_ofHead hc

/-- Every event and every other valid command that is read has a preview, and the preview is the
one sentence that tells the fields of the command. A command that is not valid has none. -/
theorem preview_iff_restates {line : String} (hread : Command.read defaults now line = .ok c) :
    (c.kind = .event → c.isValid = true) ∧
    (c.isValid = true → c.preview.isSome = true) ∧
    ∀ s, c.preview = some s ↔ c.isValid = true ∧ Restates c s := by
  cases previewed_of_read hread with
  | valid hvalid hs h =>
    refine ⟨fun _ => hvalid, fun _ => by rw [hs]; rfl, fun s => ?_⟩
    rw [hs]
    constructor
    · intro hsome
      exact ⟨hvalid, Option.some.inj hsome ▸ h⟩
    · intro hboth
      rw [h.unique hboth.2]
  | invalid hvalid hs hkind =>
    have hnot : c.isValid ≠ true := by
      rw [hvalid]
      decide
    refine ⟨fun h => absurd h hkind, fun h => absurd h hnot, fun s => ?_⟩
    rw [hs]
    exact iff_of_false (Option.some_ne_none s).symm fun hboth => hnot hboth.1

/-- A stand-up from noon on, without a title and with two people. -/
theorem preview_iff_restates_standup :
    ∃ c, Command.read {} ⟨8, 10, 0⟩ "standup 12pm-20m @ana @bo" = .ok c ∧
      Restates c "standup at 12:00 for 20 minutes with ana, bo" := by
  have hread : Command.read {} ⟨8, 10, 0⟩ "standup 12pm-20m @ana @bo" = .ok
      { kind := .event, subtype := some "standup"
        slot := { start := some ⟨12, 0⟩, length := some 20 }
        attendees := ["ana", "bo"], isValid := true
        preview := some "standup at 12:00 for 20 minutes with ana, bo" } := by
    decide
  exact ⟨_, hread, (((preview_iff_restates hread).2.2 _).1 rfl).2⟩

end Command

end Shorthand
