import Shorthand.Proofs.Command.Fault
import Shorthand.Proofs.Task.Spelling

/-!
Blocks as they are written, with their kind, their time and their tasks. `Command.read_blockLine`
says that the line of a block is read back as the block, whatever the clock shows.
-/

namespace Shorthand

open Text

/-! ## The word of a kind -/

theorem BlockKind.mem_of_ofName? {name : String} {kind : BlockKind}
    (h : ofName? name = some kind) :
    name ∈ ["deep", "deep-work", "admin", "break", "exercise", "personal"] := by
  unfold ofName? at h
  split at h
  case h_7 => cases h
  all_goals decide

/-- A word that names a kind of block is one word. -/
theorem BlockKind.isWord_of_ofWord? {word : List Char} {kind : BlockKind}
    (h : ofWord? word = some kind) : word ≠ [] ∧ ∀ c ∈ word, isBlank c = false := by
  have hnames : ∀ name ∈ ["deep", "deep-work", "admin", "break", "exercise", "personal"],
      name.toList ≠ [] ∧ name.toList.all (!isBlank ·) = true := by decide
  obtain ⟨hne, hall⟩ := hnames _ (mem_of_ofName? h)
  rw [String.toList_ofList] at hne hall
  constructor
  · rintro rfl
    exact hne rfl
  · exact isBlank_of_lower (not_blank_of_all hall)

/-! ## The time of a block -/

namespace Slot

variable (now : ClockReading) (start finish : ClockTime)

def compactRange : List Char := start.compact ++ '-' :: finish.compact

theorem isDigit_or_hyphen {c : Char} (hc : c ∈ compactRange start finish) :
    c.isDigit = true ∨ c = '-' := by
  rcases List.mem_append.1 hc with hc | hc
  · exact Or.inl (start.namesCompactTime_compact.isDigit c hc)
  · rcases List.mem_cons.1 hc with rfl | hc
    · exact Or.inr rfl
    · exact Or.inl (finish.namesCompactTime_compact.isDigit c hc)

theorem lowerChar_compactRange : ∀ c ∈ compactRange start finish,
    isBlank c = false ∧ lowerChar c = [c] := by
  intro c hc
  rcases isDigit_or_hyphen start finish hc with hdigit | rfl
  · exact ⟨isBlank_of_isDecimal (isDecimal_of_isDigit hdigit), lowerChar_of_isDigit hdigit⟩
  · decide

/-- A compact range of two times is read as the slot between them. -/
theorem read_compactRange : Slot.read now (compactRange start finish) =
    .ok { start := some start, finish := some finish
          length := some ((finish.minutes : Int) - start.minutes) } :=
  read_of_means (lowerChar_compactRange start finish)
    (.compact start.namesCompactTime_compact finish.namesCompactTime_compact)

end Slot

/-! ## Lines -/

namespace Command

variable {word : List Char} (start finish : ClockTime) (tasks : List Task.Spelling)

def blockWords (word : List Char) : List (List Char) :=
  word :: Slot.compactRange start finish :: tasks.map Task.Spelling.chars

def blockLine (word : List Char) : String :=
  String.ofList (spaced (['b', 'l', 'k'] :: blockWords start finish tasks word))

/-- The words of a block as it is written are its keyword, its kind, its time and its tasks. -/
theorem words_blockLine {kind : BlockKind} (hword : BlockKind.ofWord? word = some kind) :
    words (trim (blockLine start finish tasks word).toList) =
      ['b', 'l', 'k'] :: blockWords start finish tasks word := by
  rw [blockLine, String.toList_ofList, words_trim]
  apply words_joinWith_space
  have hrange : Slot.compactRange start finish ≠ [] :=
    List.append_ne_nil_of_right_ne_nil _ (List.cons_ne_nil _ _)
  refine List.forall_mem_cons.2 ⟨⟨by decide, not_blank_of_all rfl⟩, List.forall_mem_cons.2
    ⟨BlockKind.isWord_of_ofWord? hword, List.forall_mem_cons.2
      ⟨⟨hrange, fun c hc => (Slot.lowerChar_compactRange start finish c hc).1⟩, fun w hw => ?_⟩⟩⟩
  obtain ⟨t, -, rfl⟩ := List.mem_map.1 hw
  exact ⟨t.chars_ne_nil, t.no_blank_chars⟩

/-- Tasks as they are written are read back in their order. -/
theorem filterMap_read_chars :
    (tasks.map Task.Spelling.chars).filterMap Task.read? = tasks.map Task.Spelling.task := by
  have hread : Task.read? ∘ Task.Spelling.chars = some ∘ Task.Spelling.task :=
    funext Task.Spelling.read_chars
  rw [List.filterMap_map, hread, List.filterMap_eq_map]

/-- The line of a block is read as the block, with every task that is written in it. -/
theorem read_blockLine {kind : BlockKind} (hword : BlockKind.ofWord? word = some kind)
    (defaults : LineDefaults) (now : ClockReading) :
    let slot : Slot := { start := some start, finish := some finish
                         length := some ((finish.minutes : Int) - start.minutes) }
    Command.read defaults now (blockLine start finish tasks word) = .ok
      { kind := .block, subtype := some kind.name, slot, tasks := tasks.map Task.Spelling.task
        isValid := true, preview := some (Preview.block kind slot tasks.length) } := by
  intro slot
  have hwords := words_blockLine start finish tasks hword
  have hblank : trim (blockLine start finish tasks word).toList ≠ [] := by
    intro hnil
    rw [hnil] at hwords
    cases hwords
  have hhead : Head.read now (trim (blockLine start finish tasks word).toList) = .ok
      (.block kind (Slot.compactRange start finish :: tasks.map Task.Spelling.chars)) := by
    rw [Head.read_of_claims (k := .block) hwords (by decide) nofun]
    simp only [Keyword.head, blockWords, hword]
  have hslot : Slot.read now (Slot.compactRange start finish) = .ok slot :=
    Slot.read_compactRange now start finish
  rw [read_eq_bind hblank, hhead]
  show ofBlock now kind (Slot.compactRange start finish :: tasks.map Task.Spelling.chars) = _
  rw [ofBlock_cons, hslot]
  -- The slot has a start, an end and a length, so nothing can be said against it.
  show Except.ok (blockAt kind _ _ slot) = _
  rw [blockAt, filterMap_read_chars, List.length_map]
  rfl

/-- The block ends on the clock before it starts, so its length is negative. -/
theorem read_blk_deep_over_midnight :
    BlockKind.ofWord? "Deep".toList = some .deepWork ∧
      Command.read {} ⟨8, 10, 0⟩ "blk Deep 2330-0015 2-write-report-45 read-book-30" = .ok
        { kind := .block, subtype := some "deep-work"
          slot := { start := some ⟨23, 30⟩, finish := some ⟨0, 15⟩, length := some (-1395) }
          tasks := [{ name := "write report", minutes := 45, order := some 2 },
            { name := "read book", minutes := 30 }]
          isValid := true
          preview := some "deep-work block from 23:30 to 00:15 with 2 tasks" } := by
  have hword : BlockKind.ofWord? "Deep".toList = some .deepWork := by decide
  let report : Task.Spelling := {
    order := some 2, name := ["write".toList, "report".toList], minutes := 45
    order_le := by rintro _ ⟨⟩; decide
    isWords := ⟨by decide, by decide, List.forall_mem_cons.2 ⟨not_blank_of_all rfl,
      List.forall_mem_singleton.2 (not_blank_of_all rfl)⟩, by decide⟩
    minutes_pos := by decide
    minutes_le := by decide
    no_number := nofun }
  let book : Task.Spelling := {
    order := none, name := ["read".toList, "book".toList], minutes := 30
    order_le := nofun
    isWords := ⟨by decide, by decide, List.forall_mem_cons.2 ⟨not_blank_of_all rfl,
      List.forall_mem_singleton.2 (not_blank_of_all rfl)⟩, by decide⟩
    minutes_pos := by decide
    minutes_le := by decide
    no_number := by
      rintro - first second rest hname n hnumeral
      obtain rfl : "read".toList = first := (List.cons.inj hname).1
      exact absurd (hnumeral.isDigit 'r' (by decide)) (by decide) }
  have hline : blockLine ⟨23, 30⟩ ⟨0, 15⟩ [report, book] "Deep".toList =
      "blk Deep 2330-0015 2-write-report-45 read-book-30" := by decide
  refine ⟨hword, ?_⟩
  rw [← hline, read_blockLine _ _ _ hword]
  decide

end Command

end Shorthand
