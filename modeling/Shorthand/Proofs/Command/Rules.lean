import Shorthand.Command.Read
import Shorthand.Proofs.Chain
import Shorthand.Proofs.Text.Pieces

/-!
The rules that read the rest of a line. A rule that reads a time is what becomes of each slot, after
the one word that may fail to be read; every rule answers with a command of one kind.
-/

namespace Shorthand

open Text

def Head.kind : Head → CommandKind
  | .bareBlock => .block
  | .block _ _ => .block
  | .event _ _ => .event
  | .routine _ => .routine
  | .task _ => .task
  | .batch _ => .batch
  | .template _ => .template
  | .assistant _ => .assistant
  | .quick _ _ => .quick
  | .plain _ => .task

def isSlash (c : Char) : Bool := c == '/'

theorem not_isSlash_of_isBlank (c : Char) (h : isBlank c = true) : isSlash c = false := by
  cases hc : isSlash c with
  | false => rfl
  | true =>
    obtain rfl : c = '/' := by simpa [isSlash] using hc
    exact absurd h (by decide)

namespace Command

variable {defaults : LineDefaults} {now : ClockReading}

/-- A blank line is read as the blank command. -/
theorem read_of_blank {line : String} (hblank : trim line.toList = []) :
    Command.read defaults now line = .ok blank := by
  unfold Command.read
  dsimp only
  rw [if_pos (by simpa using hblank)]

/-- Any other line is read in two steps: its head, and the command that the head asks for. -/
theorem read_eq_bind {line : String} (hblank : trim line.toList ≠ []) :
    Command.read defaults now line = Head.read now (trim line.toList) >>= ofHead defaults now := by
  unfold Command.read
  dsimp only
  rw [if_neg (by simpa using hblank)]

/-! ## Blocks and quick actions -/

def blockAt (kind : BlockKind) (time : List Char) (rest : List (List Char)) (slot : Slot) :
    Command :=
  if slot.isEmpty then
    { kind := .block, subtype := some kind.name, notes := { invalidTime := true }
      hint := some (Hint.invalidTime (String.ofList time)) }
  else if slot.isComplete then
    { kind := .block, subtype := some kind.name, slot, tasks := rest.filterMap Task.read?
      isValid := true
      preview := some (Preview.block kind slot (rest.filterMap Task.read?).length) }
  else
    { kind := .block, subtype := some kind.name, slot, tasks := rest.filterMap Task.read?
      notes := { needsDuration := true }, hint := some Hint.duration }

/-- The first word of a block is its time, and the others may note tasks. -/
theorem ofBlock_cons (kind : BlockKind) (time : List Char) (rest : List (List Char)) :
    ofBlock now kind (time :: rest) = (Slot.read now time).map (blockAt kind time rest) := by
  show Slot.read now time >>= _ = _
  cases Slot.read now time with
  | error fault => rfl
  | ok slot =>
    show (if slot.isEmpty = true then _ else _) = Except.ok (blockAt kind time rest slot)
    unfold blockAt
    split
    · rfl
    · split <;> rfl

def quickSlot (now : ClockReading) : Option (List Char) → Except ReadFault Slot
  | some word => Slot.read now word
  | none => .ok {}

theorem ofQuick_eq_map (action : QuickAction) (time : Option (List Char)) :
    ofQuick now action time = (quickSlot now time).map fun slot =>
      { kind := .quick, subtype := some action.name, slot, isValid := true
        preview := some (Preview.quick action slot.length) } := by
  cases time <;> rfl

/-! ## Events -/

def EventParts.titled (word : List Char) (parts : EventParts) : EventParts :=
  { parts with title := word :: parts.title }

/-- The parts of an event with one more person in front, unless the name is empty. -/
def EventParts.joined (name : List Char) (parts : EventParts) : EventParts :=
  if name.isEmpty then parts else { parts with attendees := name :: parts.attendees }

namespace EventParts

variable {slot : Slot} {word : List Char}

/-- A word that starts with `@` is a person of the event, and nothing else is changed by it. -/
theorem read_name (slot : Slot) (name : List Char) (rest : List (List Char)) :
    EventParts.read now slot (('@' :: name) :: rest) =
      (EventParts.read now slot rest).map (joined name) :=
  rfl

theorem not_name (hword : word.head? ≠ some '@') (name : List Char) :
    word = '@' :: name → False := by
  rintro rfl
  exact hword rfl

/-- Until the time of an event is found, each word that is no name is tried as the time. -/
theorem read_word (hword : word.head? ≠ some '@') (hstart : slot.start = none)
    (rest : List (List Char)) :
    EventParts.read now slot (word :: rest) = Slot.read now word >>= fun time =>
      if time.isEmpty then (EventParts.read now slot rest).map (titled word)
      else EventParts.read now time rest := by
  rw [EventParts.read.eq_3 now slot word rest (not_name hword), if_pos (by rw [hstart]; rfl)]
  rfl

/-- Behind its time every word of an event belongs to its title. -/
theorem read_word_of_isSome (hword : word.head? ≠ some '@') (hstart : slot.start.isSome = true)
    (rest : List (List Char)) :
    EventParts.read now slot (word :: rest) =
      (EventParts.read now slot rest).map (titled word) := by
  have hnot : ¬ slot.start.isNone = true := by
    rw [Option.isNone_iff_eq_none]
    exact Option.isSome_iff_ne_none.1 hstart
  rw [EventParts.read.eq_3 now slot word rest (not_name hword), if_neg hnot]
  rfl

end EventParts

theorem ofEvent_eq_map (kind : EventKind) (rest : List (List Char)) :
    ofEvent now kind rest = (EventParts.read now {} rest).map fun parts =>
      let title := if parts.title.isEmpty then none else some (String.ofList (spaced parts.title))
      let attendees := parts.attendees.map String.ofList
      { kind := .event, subtype := some kind.name, slot := parts.slot, attendees, notes := { title }
        isValid := true, preview := some (Preview.event kind title parts.slot attendees) } :=
  rfl

/-! ## Batches -/

theorem batchCommands_eq (text : List Char) :
    batchCommands text = (fields isSlash text).map String.ofList := rfl

/-! ## Kinds -/

@[simp]
theorem kind_blockAt (kind : BlockKind) (time : List Char) (rest : List (List Char)) (slot : Slot) :
    (blockAt kind time rest slot).kind = .block := by
  unfold blockAt
  split
  · rfl
  · split <;> rfl

theorem kind_ofNamed (kind : CommandKind) (choose : String) (preview : String → String)
    (name : List (List Char)) : (ofNamed kind choose preview name).kind = kind := by
  unfold ofNamed
  dsimp only
  split <;> rfl

theorem kind_ofTaskWords (rest : List (List Char)) : (ofTaskWords rest).kind = .task := by
  unfold ofTaskWords
  split <;> rfl

theorem kind_ofBatch (text : List Char) : (ofBatch text).kind = .batch := by
  unfold ofBatch
  dsimp only
  split <;> rfl

theorem kind_ofPlain (defaults : LineDefaults) (text : List Char) :
    (ofPlain defaults text).kind = .task := by
  unfold ofPlain
  split <;> rfl

/-- A command is of the kind that its head asks for. -/
theorem kind_of_ofHead {head : Head} {c : Command} (h : ofHead defaults now head = .ok c) :
    c.kind = head.kind := by
  cases head with
  | block kind rest =>
    cases rest with
    | nil =>
      cases h
      rfl
    | cons time rest =>
      have hmap : (Slot.read now time).map (blockAt kind time rest) = .ok c :=
        (ofBlock_cons kind time rest).symm.trans h
      obtain ⟨slot, -, rfl⟩ := map_eq_ok_iff.1 hmap
      exact kind_blockAt ..
  | event kind rest =>
    obtain ⟨parts, -, h⟩ := bind_eq_ok_iff.1 h
    cases h
    rfl
  | quick action time =>
    obtain ⟨slot, -, rfl⟩ := map_eq_ok_iff.1 ((ofQuick_eq_map action time).symm.trans h)
    rfl
  | routine name =>
    cases h
    exact kind_ofNamed ..
  | template name =>
    cases h
    exact kind_ofNamed ..
  | task rest =>
    cases h
    exact kind_ofTaskWords rest
  | batch text =>
    cases h
    exact kind_ofBatch text
  | plain text =>
    cases h
    exact kind_ofPlain defaults text
  | bareBlock =>
    cases h
    rfl
  | assistant query =>
    cases h
    rfl

end Command

end Shorthand
