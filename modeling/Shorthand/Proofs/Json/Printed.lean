import Shorthand.Proofs.Json.Written

/-!
Printed JSON values: `Json.read?_toLine` and `Json.read?_toLines` say that a value without fractions
is read back from its text on one line and from its text over several lines.
-/

namespace Shorthand.Json

open Text

/-- The numbers in the value are whole, and no object in it has two fields of one key. -/
inductive Plain : Json → Prop
  | null : Plain .null
  | bool (b : Bool) : Plain (.bool b)
  | int (i : Int) : Plain (int i)
  | string (s : String) : Plain (.string s)
  | array {items : List Json} (h : ∀ v ∈ items, Plain v) : Plain (.array items)
  | object {fields : List (String × Json)} (hkeys : (fields.map Prod.fst).Nodup)
      (h : ∀ f ∈ fields, Plain f.2) : Plain (.object fields)

def fieldText (gap : List Char) (text : Json → List Char) (f : String × Json) : FieldText :=
  { gap, key := f.1, value := f.2, text := text f.2 }

section Written

variable {gap front : List Char} {text : Json → List Char}

theorem Written.gap_append {v : Json} {cs : List Char} (hgap : ∀ c ∈ gap, isSpace c = true)
    (h : Written v cs) : Written v (gap ++ cs) := by
  induction gap with
  | nil => exact h
  | cons c gap ih =>
    obtain ⟨hc, hgap⟩ := List.forall_mem_cons.1 hgap
    exact (ih hgap).space hc

/-- Items that are written, with commas between them, are an array that is written. -/
theorem Written.items {items : List Json} (hgap : ∀ c ∈ gap, isSpace c = true)
    (h : ∀ v ∈ items, Written v (text v)) :
    Written (.array items) ('[' :: (joinWith [','] (items.map text) ++ (gap ++ [']']))) := by
  have harray := Written.array (items.map fun v => (v, text v)) hgap (by simpa using h)
  simpa [Function.comp_def] using harray

/-- Fields that are written, with commas between them, are an object that is written. -/
theorem Written.fields {fields : List (String × Json)} (hgap : ∀ c ∈ gap, isSpace c = true)
    (hfront : ∀ c ∈ front, isSpace c = true) (h : ∀ f ∈ fields, Written f.2 (text f.2)) :
    Written (.object fields)
      ('\x7b' :: (joinWith [','] (fields.map fun f => (fieldText front text f).chars) ++
        (gap ++ ['\x7d']))) := by
  have hgaps : ∀ f ∈ fields.map (fieldText front text), ∀ c ∈ f.gap, isSpace c = true := by
    intro f hf
    obtain ⟨g, -, rfl⟩ := List.mem_map.1 hf
    exact hfront
  have hvalues : ∀ f ∈ fields.map (fieldText front text), Written f.value f.text := by
    intro f hf
    obtain ⟨g, hg, rfl⟩ := List.mem_map.1 hf
    exact h g hg
  have hobject := Written.object (fields.map (fieldText front text)) hgap hgaps hvalues
  simpa [Function.comp_def, FieldText.field, fieldText] using hobject

end Written

/-! ## On one line -/

theorem compactItems_eq (items : List Json) :
    compactItems items = joinWith [','] (items.map compact) ++ [']'] := by
  induction items with
  | nil => rfl
  | cons v rest ih =>
    cases rest with
    | nil => rw [compactItems, List.map_singleton, joinWith_singleton]
    | cons w rest => simp [compactItems, ih, joinWith_cons_cons]

theorem compactFields_eq (fields : List (String × Json)) :
    compactFields fields =
      joinWith [','] (fields.map fun f => (fieldText [] compact f).chars) ++ ['\x7d'] := by
  induction fields with
  | nil => rfl
  | cons f rest ih =>
    cases rest with
    | nil => simp [compactFields, joinWith_singleton, FieldText.chars, fieldText]
    | cons g rest => simp [compactFields, ih, joinWith_cons_cons, FieldText.chars, fieldText]

/-- A plain value on one line is a text of the grammar. -/
theorem Plain.written_compact {v : Json} (h : Plain v) : Written v (compact v) := by
  induction h with
  | null => exact .null
  | bool b => cases b <;> constructor
  | int i => exact .int i
  | string s => exact .string s
  | @array items _ ih =>
    rw [compact, compactItems_eq]
    exact Written.items (List.forall_mem_nil _) ih
  | @object fields _ _ ih =>
    rw [compact, compactFields_eq]
    exact Written.fields (List.forall_mem_nil _) (List.forall_mem_nil _) ih

/-! ## Over several lines -/

theorem isSpace_of_mem_newLine {level : Nat} : ∀ c ∈ newLine level, isSpace c = true := by
  intro c hc
  rcases List.mem_cons.1 hc with rfl | hc
  · rfl
  · rw [List.eq_of_mem_replicate hc]
    rfl

theorem indentedItems_eq (level : Nat) (v : Json) (rest : List Json) :
    indentedItems level (v :: rest) =
      joinWith [','] ((v :: rest).map fun w => newLine (level + 1) ++ indented (level + 1) w) ++
        (newLine level ++ [']']) := by
  induction rest generalizing v with
  | nil => simp [indentedItems, joinWith_singleton]
  | cons w rest ih => simp [indentedItems, ih, joinWith_cons_cons]

def fieldLine (level : Nat) (f : String × Json) : FieldText :=
  fieldText (newLine (level + 1)) (fun v => [' '] ++ indented (level + 1) v) f

theorem indentedFields_eq (level : Nat) (f : String × Json) (rest : List (String × Json)) :
    indentedFields level (f :: rest) =
      joinWith [','] ((f :: rest).map fun g => (fieldLine level g).chars) ++
        (newLine level ++ ['\x7d']) := by
  induction rest generalizing f with
  | nil => simp [indentedFields, joinWith_singleton, FieldText.chars, fieldLine, fieldText]
  | cons g rest ih =>
    simp [indentedFields, ih, joinWith_cons_cons, FieldText.chars, fieldLine, fieldText]

/-- A plain value over several lines is a text of the grammar, at any level. -/
theorem Plain.written_indented {v : Json} (h : Plain v) (level : Nat) :
    Written v (indented level v) := by
  induction h generalizing level with
  | null => exact .null
  | bool b => cases b <;> constructor
  | int i => exact .int i
  | string s => exact .string s
  | @array items _ ih =>
    cases items with
    | nil => exact Written.array [] (List.forall_mem_nil _) (List.forall_mem_nil _)
    | cons v rest =>
      rw [indented, indentedItems_eq]
      exact Written.items isSpace_of_mem_newLine
        fun w hw => (ih w hw (level + 1)).gap_append isSpace_of_mem_newLine
  | @object fields _ _ ih =>
    cases fields with
    | nil =>
      exact Written.object [] (List.forall_mem_nil _) (List.forall_mem_nil _)
        (List.forall_mem_nil _)
    | cons f rest =>
      rw [indented, indentedFields_eq]
      exact Written.fields isSpace_of_mem_newLine isSpace_of_mem_newLine
        fun g hg => (ih g hg (level + 1)).gap_append (by simp [isSpace])

/-! ## Reading -/

/-- A value is read back from its text on one line. -/
theorem read?_toLine {v : Json} (h : Plain v) : read? v.toLine = some v := by
  apply read?_of_written
  rw [toLine, String.toList_ofList]
  exact h.written_compact

/-- A value is read back from its text over several lines. -/
theorem read?_toLines {v : Json} (h : Plain v) : read? v.toLines = some v := by
  apply read?_of_written
  rw [toLines, String.toList_ofList]
  exact h.written_indented 0

end Shorthand.Json
