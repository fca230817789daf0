import Shorthand.Proofs.Slot.Spelling
import Shorthand.Proofs.Task.Spelling
import Shorthand.Proofs.Text.Pieces

/-!
The notation of tasks. `Task.read?_eq_some_iff_denotes` says that a token is read as a task
exactly if it denotes that task: its minutes behind its last hyphen, its place in the order in front
of its first, and its name between them.
-/

namespace Shorthand

open Text

namespace Task

/-! ## Names -/

def nameWords (cs : List Char) : List (List Char) := (pieces isGap cs).filter (!·.isEmpty)

/-- Cutting a name at blanks after its hyphens became blanks is cutting it at both. -/
theorem nameOf_eq_joinWith (cs : List Char) : nameOf cs = joinWith [' '] (nameWords cs) := by
  have hpieces : pieces isBlank (cs.map fun c => if c = '-' then ' ' else c) = pieces isGap cs := by
    induction cs with
    | nil => rfl
    | cons c cs ih =>
      rw [List.map_cons, pieces, pieces, ih]
      by_cases hc : c = '-'
      · rw [hc, if_pos rfl]
        rfl
      · have hgap : isGap c = isBlank c := by simp [isGap, hc]
        rw [if_neg hc, hgap]
  rw [nameOf, words, hpieces, nameWords]

theorem joinWith_nameWords_ne_nil {cs : List Char} :
    joinWith [' '] (nameWords cs) ≠ [] ↔ nameWords cs ≠ [] := by
  constructor
  · intro h hnil
    rw [hnil] at h
    exact h rfl
  · intro h
    refine joinWith_ne_nil h fun w hw hnil => ?_
    have hempty := (List.mem_filter.1 hw).2
    rw [hnil] at hempty
    cases hempty

/-! ## Notation -/

def IsPlaced (front : List Char) (place : Nat) (name : List Char) : Prop :=
  ∃ digits, front = digits ++ '-' :: name ∧ IsNumeral digits place ∧ place ≤ 4294967295 ∧ name ≠ []

/-- What a text denotes: on one line a front that is not empty, a hyphen, and the minutes in ASCII
digits. The name is the rest of the front behind a place in the order, even if that is no name, and
the whole front where there is no such place. -/
inductive Denotes (text : List Char) : Task → Prop
  | placed {front digits name : List Char} {minutes place : Nat}
      (htext : text = front ++ '-' :: digits) (hline : '\n' ∉ text)
      (hminutes : IsNumeral digits minutes) (hpos : 0 < minutes) (hle : minutes ≤ 4294967295)
      (hplaced : IsPlaced front place name) (hname : nameWords name ≠ []) :
      Denotes text { name := String.ofList (joinWith [' '] (nameWords name)), minutes
                     order := some place }
  | unplaced {front digits : List Char} {minutes : Nat}
      (htext : text = front ++ '-' :: digits) (hline : '\n' ∉ text) (hfront : front ≠ [])
      (hminutes : IsNumeral digits minutes) (hpos : 0 < minutes) (hle : minutes ≤ 4294967295)
      (hplaced : ∀ place name, ¬ IsPlaced front place name) (hname : nameWords front ≠ []) :
      Denotes text { name := String.ofList (joinWith [' '] (nameWords front)), minutes
                     order := none }

section Order

variable {front name : List Char} {place : Nat} (hline : '\n' ∉ front)

include hline

theorem order?_eq_some_iff_isPlaced : order? front = some (place, name) ↔
    IsPlaced front place name := by
  rw [order?_eq_some_iff]
  refine exists_congr fun digits => and_congr_right fun hfront => and_congr_right fun _ =>
    and_congr_right fun _ => ?_
  rw [isName_iff, and_iff_left_iff_imp]
  rintro - hmem
  exact hline (hfront ▸ List.mem_append_right digits (List.mem_cons_of_mem '-' hmem))

theorem order?_eq_none_iff_isPlaced : order? front = none ↔
    ∀ place name, ¬ IsPlaced front place name := by
  rw [Option.eq_none_iff_forall_ne_some, Prod.forall]
  simp only [ne_eq, order?_eq_some_iff_isPlaced hline]

end Order

/-- A name and digits are a task if the name has a word and the minutes are positive and fit their
word. -/
theorem ofParts?_eq_some_iff_nameWords {name digits : List Char} {t : Task} :
    ofParts? name digits = some t ↔ ∃ minutes, IsNumeral digits minutes ∧ 0 < minutes ∧
      minutes ≤ 4294967295 ∧ nameWords name ≠ [] ∧
      t = { name := String.ofList (joinWith [' '] (nameWords name)), minutes } := by
  simp only [ofParts?_eq_some_iff, nameOf_eq_joinWith, joinWith_nameWords_ne_nil]

/-- A task is written on one line, with a hyphen in front of its minutes. -/
theorem exists_parts_of_readTrimmed? {text : List Char} {t : Task}
    (h : readTrimmed? text = some t) :
    ∃ front digits, text = front ++ '-' :: digits ∧ isName front = true ∧
      isDigits digits = true := by
  obtain ⟨⟨front, digits⟩, hparts, -⟩ := Option.bind_eq_some_iff.1 h
  exact ⟨front, digits, nameAndMinutes?_eq_some_iff.1 hparts⟩

theorem newline_not_mem {front digits : List Char} (hfront : isName front = true)
    (hdigits : isDigits digits = true) : '\n' ∉ front ++ '-' :: digits := by
  intro hmem
  rcases List.mem_append.1 hmem with hmem | hmem
  · exact (isName_iff.1 hfront).2 hmem
  · rcases List.mem_cons.1 hmem with hmem | hmem
    · cases hmem
    · exact absurd ((isDigits_iff.1 hdigits).2 '\n' hmem) (by decide)

/-- What is read as a task denotes it. -/
theorem denotes_of_readTrimmed? {text : List Char} {t : Task} (h : readTrimmed? text = some t) :
    Denotes text t := by
  obtain ⟨front, digits, rfl, hfront, hdigits⟩ := exists_parts_of_readTrimmed? h
  obtain ⟨hne, hfront_line⟩ := isName_iff.1 hfront
  have hline := newline_not_mem hfront hdigits
  cases horder : order? front with
  | some found =>
    obtain ⟨place, name⟩ := found
    rw [readTrimmed?_of_order hfront hdigits horder] at h
    obtain ⟨u, hu, rfl⟩ := Option.map_eq_some_iff.1 h
    obtain ⟨minutes, hminutes, hpos, hle, hname, rfl⟩ := ofParts?_eq_some_iff_nameWords.1 hu
    exact .placed rfl hline hminutes hpos hle
      ((order?_eq_some_iff_isPlaced hfront_line).1 horder) hname
  | none =>
    rw [readTrimmed?_of_no_order hfront hdigits horder] at h
    obtain ⟨minutes, hminutes, hpos, hle, hname, rfl⟩ := ofParts?_eq_some_iff_nameWords.1 h
    exact .unplaced rfl hline hne hminutes hpos hle
      ((order?_eq_none_iff_isPlaced hfront_line).1 horder) hname

/-- What denotes a task is read as it. -/
theorem Denotes.readTrimmed? {text : List Char} {t : Task} (h : Denotes text t) :
    readTrimmed? text = some t := by
  cases h with
  | @placed front digits name minutes place htext hline hminutes hpos hle hplaced hname =>
    subst htext
    have hfront_line : '\n' ∉ front := fun hmem => hline (List.mem_append_left _ hmem)
    have hfront : isName front = true := by
      obtain ⟨number, rfl, -⟩ := hplaced
      exact isName_iff.2 ⟨by simp, hfront_line⟩
    have hdigits : isDigits digits = true := isDigits_iff.2 ⟨hminutes.ne_nil, hminutes.isDecimal⟩
    rw [readTrimmed?_of_order hfront hdigits ((order?_eq_some_iff_isPlaced hfront_line).2 hplaced),
      ofParts?_eq_some_iff_nameWords.2 ⟨minutes, hminutes, hpos, hle, hname, rfl⟩]
    rfl
  | @unplaced front digits minutes htext hline hne hminutes hpos hle hplaced hname =>
    subst htext
    have hfront_line : '\n' ∉ front := fun hmem => hline (List.mem_append_left _ hmem)
    have hdigits : isDigits digits = true := isDigits_iff.2 ⟨hminutes.ne_nil, hminutes.isDecimal⟩
    rw [readTrimmed?_of_no_order (isName_iff.2 ⟨hne, hfront_line⟩) hdigits
      ((order?_eq_none_iff_isPlaced hfront_line).2 hplaced)]
    exact ofParts?_eq_some_iff_nameWords.2 ⟨minutes, hminutes, hpos, hle, hname, rfl⟩

/-- A token is read as a task exactly if it denotes that task, without its outer blanks. -/
theorem read?_eq_some_iff_denotes (token : List Char) (t : Task) :
    read? token = some t ↔ Denotes (trim token) t :=
  ⟨denotes_of_readTrimmed?, Denotes.readTrimmed?⟩

end Task

end Shorthand
