import Shorthand.Files.Path
import Shorthand.Proofs.Text.Pieces

/-!
The directory above a path. `Path.steps_of_parent?` says that the steps to it are the first of those
along the path, and `Path.front_of_parent?` that the path begins with it.
-/

namespace Shorthand.Path

open Text

variable {p q : Path}

/-- What stands behind the last step that leads somewhere. -/
theorem exists_withoutIdleEnd_append (steps : List String) :
    ∃ idle, steps = withoutIdleEnd steps ++ idle := by
  refine ⟨(steps.reverse.takeWhile fun s => s = "" || s = ".").reverse, ?_⟩
  rw [withoutIdleEnd, ← List.reverse_append, List.takeWhile_append_dropWhile, List.reverse_reverse]

theorem ne_empty_of_mem_getLast? {steps : List String} {step : String}
    (h : step ∈ (withoutIdleEnd steps).getLast?) : step ≠ "" := by
  rw [withoutIdleEnd, List.getLast?_reverse] at h
  have hstep := not_of_mem_head?_dropWhile h
  rintro rfl
  cases hstep

/-- The steps as they are written, with slashes between them. -/
theorem toList_eq_intercalate (p : Path) :
    p.text.toList = ['/'].intercalate (p.written.map String.toList) := by
  have hself : String.toList ∘ String.ofList = id := funext fun _ => String.toList_ofList
  rw [written, List.map_map, hself, List.map_id]
  exact (intercalate_pieces '/' p.text.toList).symm

theorem slash_not_mem_of_mem_written {step : String} (h : step ∈ p.written) :
    '/' ∉ step.toList := by
  obtain ⟨cs, hcs, rfl⟩ := List.mem_map.1 h
  rw [String.toList_ofList]
  intro hmem
  have hsep := not_sep_of_mem_pieces hcs hmem
  cases hsep

/-- The path above is the path cut off in front of a slash, or the root where nothing is left. -/
theorem exists_written_of_parent? (h : p.parent? = some q) :
    ∃ front back, front ≠ [] ∧ p.written = front ++ back ∧ (∃ step ∈ back, step ≠ "") ∧
      q = ⟨if (String.intercalate "/" front).isEmpty then "/"
        else String.intercalate "/" front⟩ := by
  unfold parent? at h
  split at h
  · cases h
  rename_i first rest hwritten
  dsimp only at h
  split at h
  · cases h
  rename_i hbelow
  cases h
  have hne : withoutIdleEnd rest ≠ [] := fun hnil => hbelow (List.isEmpty_iff.2 hnil)
  obtain ⟨behind, hrest⟩ := exists_withoutIdleEnd_append rest
  obtain ⟨idle, hfront⟩ := exists_withoutIdleEnd_append (withoutIdleEnd rest).dropLast
  have hlast := List.dropLast_append_getLast hne
  refine ⟨first :: withoutIdleEnd (withoutIdleEnd rest).dropLast,
    idle ++ [(withoutIdleEnd rest).getLast hne] ++ behind, List.cons_ne_nil _ _, ?_,
    ⟨(withoutIdleEnd rest).getLast hne, by simp, ?_⟩, rfl⟩
  · rw [hwritten, List.cons_append, ← List.append_assoc, ← List.append_assoc, ← hfront, hlast,
      ← hrest]
  · exact ne_empty_of_mem_getLast? (List.getLast?_eq_some_getLast hne)

theorem filter_eq_nil_of_intercalate {front : List String}
    (h : (String.intercalate "/" front).isEmpty = true) : front.filter (· ≠ "") = [] := by
  rw [String.isEmpty_iff, ← String.toList_inj, String.toList_intercalate] at h
  cases front with
  | nil => rfl
  | cons first rest =>
    cases rest with
    | nil =>
      rw [List.map_singleton, List.intercalate_singleton] at h
      rw [String.toList_inj.1 h]
      rfl
    | cons second rest =>
      rw [List.map_cons, List.map_cons, List.intercalate_cons_cons] at h
      simp at h

/-- The steps to the directory of a path are the first ones of its own, and at least one is missing.
-/
theorem steps_of_parent? (h : p.parent? = some q) :
    ∃ behind, behind ≠ [] ∧ p.steps = q.steps ++ behind := by
  obtain ⟨front, back, hfront, hwritten, ⟨step, hstep, hne⟩, rfl⟩ := exists_written_of_parent? h
  refine ⟨back.filter (· ≠ ""), List.ne_nil_of_mem (List.mem_filter.2 ⟨hstep, by simpa using hne⟩),
    ?_⟩
  rw [steps, hwritten, List.filter_append]
  congr 1
  split
  · rename_i hempty
    rw [filter_eq_nil_of_intercalate hempty]
    decide
  · have hslash : ∀ cs ∈ front.map String.toList, '/' ∉ cs := by
      intro cs hcs
      obtain ⟨step, hstep, rfl⟩ := List.mem_map.1 hcs
      exact slash_not_mem_of_mem_written (hwritten ▸ List.mem_append_left back hstep)
    have hself : String.ofList ∘ String.toList = id := funext fun _ => String.ofList_toList
    rw [steps, written, String.toList_intercalate]
    show _ = ((pieces (· == '/') (['/'].intercalate _)).map _).filter _
    rw [pieces_intercalate (by simpa using hfront) hslash, List.map_map, hself, List.map_id]

/-- The text of the path above begins the text of the path. -/
theorem front_of_parent? (h : p.parent? = some q) :
    q.text.toList ≠ [] ∧ q.text.toList <+: p.text.toList := by
  obtain ⟨front, back, hfront, hwritten, ⟨step, hstep, -⟩, rfl⟩ := exists_written_of_parent? h
  have hcut : p.text.toList = (String.intercalate "/" front).toList ++ ['/'] ++
      ['/'].intercalate (back.map String.toList) := by
    rw [toList_eq_intercalate, hwritten, List.map_append, String.toList_intercalate]
    exact intercalate_append (by simpa using hfront) (by simpa using List.ne_nil_of_mem hstep)
  split
  · rename_i hempty
    rw [String.isEmpty_iff.1 hempty] at hcut
    exact ⟨by decide, hcut ▸ List.prefix_append _ _⟩
  · rename_i hne
    refine ⟨fun hnil => hne ?_, ?_⟩
    · rw [String.isEmpty_iff, ← String.toList_inj, hnil]
      rfl
    · rw [hcut, List.append_assoc]
      exact List.prefix_append _ _

end Shorthand.Path
