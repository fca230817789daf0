import Shorthand.Proofs.Command.Preview
import Shorthand.Proofs.Command.Synonym
import Shorthand.Proofs.Text.Spacing

/-!
The words behind the time of a block. `Command.read_append_word` says that a line about a block can
be written on: each further word adds the task that it notes, and changes nothing else.
-/

namespace Shorthand

open Text

/-- Whatever stands behind the first two words of a line about a block is left for the block to
read, behind the word that may be its kind. -/
theorem Keyword.exists_head_eq_block {k : Keyword} (hk : k.kind = .block) (second : List Char)
    (ws : List (List Char)) :
    ∃ kind front, ∀ more : List (List Char),
      k.head [] (second :: (ws ++ more)) = .block kind (front ++ (ws ++ more)) := by
  cases k with
  | block =>
    cases hkind : BlockKind.ofWord? second with
    | none =>
      refine ⟨.deepWork, [second], fun more => ?_⟩
      simp only [head, hkind]
      rfl
    | some kind =>
      refine ⟨kind, [], fun more => ?_⟩
      simp only [head, hkind]
      rfl
  | blockWord kind => exact ⟨kind, [second], fun _ => rfl⟩
  | _ => cases hk

namespace Command

variable {defaults : LineDefaults} {now : ClockReading} {line : String} {b : Command}

/-- The block with more tasks behind its own. Only a valid block has a preview, which counts all of
them. -/
def withTasks (kind : BlockKind) (more : List Task) (b : Command) : Command :=
  { b with
    tasks := b.tasks ++ more
    preview := if b.isValid then some (Preview.block kind b.slot (b.tasks ++ more).length)
      else b.preview }

section Block

variable {kind : BlockKind} {time : List Char} {slot : Slot}

@[simp]
theorem subtype_blockAt (kind : BlockKind) (time : List Char) (rest : List (List Char))
    (slot : Slot) : (blockAt kind time rest slot).subtype = some kind.name := by
  unfold blockAt
  split
  · rfl
  · split <;> rfl

/-- More words behind a time that was read are more words to find tasks among. -/
theorem blockAt_append (hslot : slot.isEmpty = false) (rest more : List (List Char)) :
    blockAt kind time (rest ++ more) slot =
      withTasks kind (more.filterMap Task.read?) (blockAt kind time rest slot) := by
  have hempty : ¬ slot.isEmpty = true := by simp [hslot]
  unfold blockAt
  rw [if_neg hempty, if_neg hempty, List.filterMap_append]
  split <;> rfl

/-- The preview of a valid block tells its kind, its slot and how many tasks it has. -/
theorem preview_blockAt {rest : List (List Char)}
    (h : (blockAt kind time rest slot).isValid = true) :
    (blockAt kind time rest slot).preview = some (Preview.block kind
      (blockAt kind time rest slot).slot (blockAt kind time rest slot).tasks.length) := by
  unfold blockAt at h ⊢
  split at h
  · cases h
  · split at h
    · simp_all
    · cases h

/-- A block that is valid or has a start was made of a time that could be read. -/
theorem exists_blockAt_of_ofBlock {ws : List (List Char)} (hread : ofBlock now kind ws = .ok b)
    (hb : b.isValid = true ∨ b.slot.start.isSome = true) :
    ∃ time rest slot, ws = time :: rest ∧ Slot.read now time = .ok slot ∧ slot.isEmpty = false ∧
      b = blockAt kind time rest slot := by
  cases ws with
  | nil =>
    cases hread
    rcases hb with hb | hb <;> cases hb
  | cons time rest =>
    rw [ofBlock_cons] at hread
    obtain ⟨slot, hslot, rfl⟩ := map_eq_ok_iff.1 hread
    refine ⟨time, rest, slot, rfl, hslot, ?_, rfl⟩
    by_contra hempty
    rw [Bool.not_eq_false] at hempty
    unfold blockAt at hb
    rw [if_pos hempty] at hb
    rcases hb with hb | hb <;> cases hb

end Block

/-- A line of two words or more that is about a block is read by the block's rule, which also reads
what is written behind the line. -/
theorem exists_ofBlock_of_read (hline : 2 ≤ (words line.toList).length)
    (hread : Command.read defaults now line = .ok b) (hkind : b.kind = .block) :
    ∃ kind ws, ofBlock now kind ws = .ok b ∧ ∀ (line' : String) (more : List (List Char)),
      words line'.toList = words line.toList ++ more →
      Command.read defaults now line' = ofBlock now kind (ws ++ more) := by
  obtain ⟨first, second, ws, hwords⟩ : ∃ first second ws,
      words line.toList = first :: second :: ws := by
    rcases hall : words line.toList with _ | ⟨first, _ | ⟨second, ws⟩⟩
    · rw [hall] at hline
      exact absurd hline (by simp)
    · rw [hall] at hline
      exact absurd hline (by simp)
    · exact ⟨first, second, ws, rfl⟩
  have htask : CommandKind.block ≠ .task := nofun
  have hwords' : words (trim line.toList) = first :: second :: ws := by rw [words_trim, hwords]
  -- The first two words say which keyword the line has, so words behind them change nothing about
  -- it.
  have hclaims : Claims now (lower first) (some second) .block :=
    (kind_eq_iff_claims hwords' hread htask).1 hkind
  obtain ⟨k, hk, halone, hblock⟩ : ∃ k, Keyword.ofName? (String.ofList (lower first)) = some k ∧
      (k.isEverydayWord = true → StandsAlone now (some second)) ∧ k.kind = .block := by
    rcases hclaims.cases with h | ⟨-, h⟩ | ⟨-, -, h⟩
    · exact h
    · cases h
    · cases h
  have hbatch : k ≠ .batch := by
    rintro rfl
    cases hblock
  obtain ⟨kind, front, hhead⟩ := Keyword.exists_head_eq_block hblock second ws
  have hmore : ∀ (line' : String) (more : List (List Char)),
      words line'.toList = words line.toList ++ more →
      Command.read defaults now line' = ofBlock now kind (front ++ ws ++ more) := by
    intro line' more hwords'
    have hsays : Says [String.ofList (lower first)] (second :: (ws ++ more)) line' :=
      ⟨[first], rfl, by rw [hwords', hwords]; rfl⟩
    rw [read_of_first_word hsays hk hbatch halone, hhead, List.append_assoc]
    rfl
  refine ⟨kind, front ++ ws, ?_, hmore⟩
  rw [← hread, hmore line [] (by rw [List.append_nil]), List.append_nil]

/-- The words written behind a line about a block that is valid or has a start are tasks of the
block, as far as they note any. -/
theorem read_append_words (hline : 2 ≤ (words line.toList).length)
    (hread : Command.read defaults now line = .ok b) (hkind : b.kind = .block)
    (hb : b.isValid = true ∨ b.slot.start.isSome = true) :
    ∃ kind : BlockKind, b.subtype = some kind.name ∧
      (b.isValid = true → b.preview = some (Preview.block kind b.slot b.tasks.length)) ∧
      ∀ (line' : String) (more : List (List Char)),
        words line'.toList = words line.toList ++ more →
        Command.read defaults now line' =
          .ok (withTasks kind (more.filterMap Task.read?) b) := by
  obtain ⟨kind, ws, hblock, hmore⟩ := exists_ofBlock_of_read hline hread hkind
  obtain ⟨time, rest, slot, rfl, hslot, hempty, rfl⟩ :=
    exists_blockAt_of_ofBlock hblock hb
  refine ⟨kind, subtype_blockAt .., preview_blockAt, fun line' more hwords => ?_⟩
  rw [hmore line' more hwords, List.cons_append, ofBlock_cons, hslot, ← blockAt_append hempty]
  rfl

/-- In the preview of a block the tasks are told last, behind what the time is told by. -/
theorem preview_block_eq_append (kind : BlockKind) (slot : Slot) (tasks : List Task) :
    ∃ told, TellsTasks tasks told ∧
      Preview.block kind slot tasks.length = Preview.block kind slot 0 ++ told := by
  refine ⟨_, tellsTasks tasks, ?_⟩
  have hnone : Preview.block kind slot 0 = kind.name ++ " block" ++ Preview.time " from" slot :=
    String.append_empty
  rw [hnone, Preview.block]

/-- One more word behind a line about a block with a time adds the task that it notes, if it notes
one, and nothing else changes: the preview of a valid block tells the new number of tasks behind the
same front, and a block whose length is missing still misses it. A gap of blanks keeps the word
apart, which can be empty if the line ends in a blank itself. -/
theorem read_append_word {gap word : String} (hline : 2 ≤ (words line.toList).length)
    (hread : Command.read defaults now line = .ok b) (hkind : b.kind = .block)
    (hstart : b.slot.start.isSome = true)
    (hgap : ∀ c ∈ gap.toList, isBlank c = true)
    (hend : ∀ c ∈ (line.toList ++ gap.toList).getLast?, isBlank c = true)
    (hword : word ≠ "") (hclear : ∀ c ∈ word.toList, isBlank c = false) :
    ∃ c, Command.read defaults now (line ++ gap ++ word) = .ok c ∧
      c = { b with tasks := b.tasks ++ (Task.read? word.toList).toList, preview := c.preview } ∧
      (b.isValid = true → ∃ front told told',
        b.preview = some (front ++ told) ∧ TellsTasks b.tasks told ∧
        c.preview = some (front ++ told') ∧ TellsTasks c.tasks told' ∧
        Restates c (front ++ told')) ∧
      (b.isValid = false → c.preview = b.preview) := by
  obtain ⟨kind, hsubtype, hpreview, hmore⟩ :=
    read_append_words hline hread hkind (Or.inr hstart)
  have hword' : word.toList ≠ [] := by simpa using hword
  have hwords : words (line ++ gap ++ word).toList = words line.toList ++ [word.toList] := by
    rw [String.toList_append, String.toList_append, words_append_of_blank_last hend,
      words_append_blanks hgap, words_eq_singleton hword' hclear]
  have hboth := hmore _ _ hwords
  have htask : [word.toList].filterMap Task.read? = (Task.read? word.toList).toList := by
    cases h : Task.read? word.toList <;> simp [h]
  rw [htask] at hboth
  refine ⟨_, hboth, rfl, fun hvalid => ?_, fun hvalid => by simp [withTasks, hvalid]⟩
  obtain ⟨told, htold, hfront⟩ := preview_block_eq_append kind b.slot b.tasks
  obtain ⟨told', htold', hfront'⟩ :=
    preview_block_eq_append kind b.slot (b.tasks ++ (Task.read? word.toList).toList)
  have hpreview' : (withTasks kind (Task.read? word.toList).toList b).preview =
      some (Preview.block kind b.slot 0 ++ told') := by
    rw [withTasks, if_pos hvalid, hfront']
  refine ⟨_, told, told', (hpreview hvalid).trans (congrArg some hfront), htold, hpreview',
    htold', ?_⟩
  -- What was read is restated by its preview, whatever the line.
  cases previewed_of_read hboth with
  | valid _ hs h => rwa [← Option.some.inj (hs.symm.trans hpreview')]
  | invalid hinvalid => exact absurd (hvalid.symm.trans hinvalid) nofun

/-- A block over two hours takes a second task, and one that has no length takes its first. -/
theorem read_append_word_deep :
    (∃ b c, Command.read {} ⟨8, 10, 0⟩ "Deep 9-11 read-30" = .ok b ∧
      Command.read {} ⟨8, 10, 0⟩ ("Deep 9-11 read-30" ++ " \t" ++ "2-write-15") = .ok c ∧
      c.slot = b.slot ∧
      c.tasks = b.tasks ++ [{ name := "write", minutes := 15, order := some 2 }] ∧
      b.preview = some "deep-work block from 09:00 to 11:00 with 1 task" ∧
      c.preview = some "deep-work block from 09:00 to 11:00 with 2 tasks" ∧
      Restates c "deep-work block from 09:00 to 11:00 with 2 tasks") ∧
    ∃ b c, Command.read {} ⟨8, 10, 0⟩ "blk now" = .ok b ∧ b.isValid = false ∧
      Command.read {} ⟨8, 10, 0⟩ ("blk now" ++ " " ++ "read-30") = .ok c ∧
      c.tasks = [{ name := "read", minutes := 30 }] ∧ c.preview = none := by
  have hdeep : Command.read {} ⟨8, 10, 0⟩ "Deep 9-11 read-30" = .ok
      { kind := .block, subtype := some "deep-work"
        slot := { start := some ⟨9, 0⟩, finish := some ⟨11, 0⟩, length := some 120 }
        tasks := [{ name := "read", minutes := 30 }], isValid := true
        preview := some "deep-work block from 09:00 to 11:00 with 1 task" } := by
    decide
  have hnow : Command.read {} ⟨8, 10, 0⟩ "blk now" = .ok
      { kind := .block, subtype := some "deep-work", slot := .startingAt ⟨8, 10⟩
        notes := { needsDuration := true }, hint := some Hint.duration } := by
    decide
  have hgap : ∀ c ∈ " \t".toList, isBlank c = true := List.all_eq_true.1 rfl
  have hend : ∀ c ∈ ("Deep 9-11 read-30".toList ++ " \t".toList).getLast?, isBlank c = true :=
    (Option.all_eq_true _ _).1 rfl
  have hspace : ∀ c ∈ " ".toList, isBlank c = true := List.all_eq_true.1 rfl
  have hend' : ∀ c ∈ ("blk now".toList ++ " ".toList).getLast?, isBlank c = true :=
    (Option.all_eq_true _ _).1 rfl
  have hword : "2-write-15" ≠ "" ∧ "read-30" ≠ "" := by decide
  obtain ⟨c, hc, hfields, hcounted, -⟩ := read_append_word (by decide) hdeep rfl rfl hgap hend
    hword.1 (not_blank_of_all rfl)
  obtain ⟨d, hd, hfields', -, hsame⟩ := read_append_word (by decide) hnow rfl rfl hspace hend'
    hword.2 (not_blank_of_all rfl)
  obtain ⟨front, told, told', hone, htold, htwo, htold', hrestates⟩ := hcounted rfl
  have hwrite : Task.read? "2-write-15".toList =
      some { name := "write", minutes := 15, order := some 2 } := by decide
  have hread : Task.read? "read-30".toList = some { name := "read", minutes := 30 } := by decide
  have htasks : c.tasks = [{ name := "read", minutes := 30 },
      { name := "write", minutes := 15, order := some 2 }] := by rw [hfields, hwrite]; rfl
  -- One task is told of the line that was read, and so the front of both sentences is known.
  obtain rfl : told = " with 1 task" := (htold.unique (tellsTasks _)).trans (by decide)
  obtain rfl : told' = " with 2 tasks" :=
    (htold'.unique (tellsTasks c.tasks)).trans (by rw [htasks]; decide)
  obtain rfl : "deep-work block from 09:00 to 11:00" = front :=
    (String.append_left_inj " with 1 task").1 (Option.some.inj hone)
  refine ⟨⟨_, c, hdeep, hc, ?_, htasks, rfl, htwo, hrestates⟩, _, d, hnow, rfl, hd, ?_, hsame rfl⟩
  · rw [hfields]
  · rw [hfields', hread]
    rfl

end Command

end Shorthand
