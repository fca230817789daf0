import Shorthand.Report.Data

/-!
JSON values without line ends. `Command.onOneLine_toJson` says that a command never needs more than
one line, whatever its texts hold.
-/

namespace Shorthand

namespace Text

/-- No character of the text is a control character below the space. -/
def Shown (cs : List Char) : Prop := ∀ c ∈ cs, 0x20 ≤ c.toNat

theorem shown_cons {c : Char} {cs : List Char} : Shown (c :: cs) ↔ 0x20 ≤ c.toNat ∧ Shown cs :=
  List.forall_mem_cons

theorem shown_append {a b : List Char} : Shown (a ++ b) ↔ Shown a ∧ Shown b :=
  List.forall_mem_append

theorem shown_of_all {cs : List Char} (h : cs.all (0x20 ≤ ·.toNat) = true) : Shown cs := by
  intro c hc
  simpa using List.all_eq_true.1 h c hc

theorem shown_digits (n : Nat) : Shown (digits n) := by
  intro c hc
  have hdigit := isDigit_of_mem_digits hc
  rw [Char.isDigit, Bool.and_eq_true, decide_eq_true_iff] at hdigit
  have hlo : 0x30 ≤ c.toNat := hdigit.1
  omega

theorem shown_hexDigits (n : Nat) : Shown (hexDigits n) := by
  have hdigit : ∀ d ∈ List.range 16, 0x20 ≤ (Nat.digitChar d).toNat := by decide
  have hrest : ∀ k, 0x20 ≤ (Nat.digitChar (k % 16)).toNat := fun k =>
    hdigit _ (List.mem_range.2 (Nat.mod_lt k (by decide)))
  rw [hexDigits, shown_cons, shown_cons, shown_cons, shown_cons]
  exact ⟨hrest _, hrest _, hrest _, hrest _, nofun⟩

end Text

open Text

namespace Json

def OnOneLine (v : Json) : Prop := Shown v.compact

/-! ## Texts and numbers -/

/-- No control character is left in what is written for a character. -/
theorem shown_escapeChar (c : Char) : Shown (escapeChar c) := by
  unfold escapeChar
  -- Seven characters have short names; what is left has a code or stands for itself.
  iterate 7
    split
    · exact shown_of_all rfl
  split
  · have hlead : Shown ['\\', 'u'] := shown_of_all rfl
    exact shown_append.2 ⟨hlead, shown_hexDigits c.toNat⟩
  · rename_i hc
    exact shown_cons.2 ⟨Nat.le_of_not_lt hc, nofun⟩

/-- A string between quotes holds no control character, whatever the text it stands for. -/
theorem shown_quoted (s : String) : Shown (quoted s) := by
  have hquote : 0x20 ≤ '"'.toNat := by decide
  rw [quoted, shown_cons, shown_append, shown_cons]
  refine ⟨hquote, fun c hc => ?_, hquote, nofun⟩
  obtain ⟨d, -, hc⟩ := List.mem_flatMap.1 hc
  exact shown_escapeChar d c hc

theorem onOneLine_string (s : String) : (Json.string s).OnOneLine := by
  rw [OnOneLine, compact]
  exact shown_quoted s

theorem onOneLine_bool (b : Bool) : (Json.bool b).OnOneLine := by
  cases b with
  | true => exact shown_of_all rfl
  | false => exact shown_of_all rfl

theorem onOneLine_int (i : Int) : (Json.int i).OnOneLine := by
  rw [OnOneLine, int, compact]
  -- An integer has no fraction and no exponent, which leaves empty texts behind its digits.
  cases i with
  | ofNat n =>
    show Shown ([] ++ digits n ++ [] ++ [])
    rw [List.append_nil, List.append_nil, List.nil_append]
    exact shown_digits n
  | negSucc n =>
    show Shown (['-'] ++ digits (n + 1) ++ [] ++ [])
    rw [List.append_nil, List.append_nil, List.singleton_append, shown_cons]
    exact ⟨by decide, shown_digits _⟩

/-! ## Arrays and objects -/

theorem onOneLine_array {items : List Json} (h : ∀ v ∈ items, v.OnOneLine) :
    (Json.array items).OnOneLine := by
  have hitems : Shown (compactItems items) := by
    induction items with
    | nil => exact shown_cons.2 ⟨by decide, nofun⟩
    | cons v items ih =>
      obtain ⟨hv, hrest⟩ := List.forall_mem_cons.1 h
      cases items with
      | nil =>
        rw [compactItems]
        exact shown_append.2 ⟨hv, shown_cons.2 ⟨by decide, nofun⟩⟩
      | cons w items =>
        rw [compactItems]
        exact shown_append.2 ⟨hv, shown_cons.2 ⟨by decide, ih hrest⟩⟩
  rw [OnOneLine, compact]
  exact shown_cons.2 ⟨by decide, hitems⟩

/-- An object takes one line if its values do; keys never break it. -/
theorem onOneLine_object {fields : List (String × Json)} (h : ∀ f ∈ fields, f.2.OnOneLine) :
    (Json.object fields).OnOneLine := by
  have hfields : Shown (compactFields fields) := by
    induction fields with
    | nil => exact shown_cons.2 ⟨by decide, nofun⟩
    | cons f fields ih =>
      obtain ⟨hf, hrest⟩ := List.forall_mem_cons.1 h
      obtain ⟨key, v⟩ := f
      have hkey : Shown (quoted key ++ ':' :: compact v) :=
        shown_append.2 ⟨shown_quoted key, shown_cons.2 ⟨by decide, hf⟩⟩
      cases fields with
      | nil =>
        rw [compactFields]
        exact shown_append.2 ⟨hkey, shown_cons.2 ⟨by decide, nofun⟩⟩
      | cons g fields =>
        rw [compactFields]
        exact shown_append.2 ⟨hkey, shown_cons.2 ⟨by decide, ih hrest⟩⟩
  rw [OnOneLine, compact]
  exact shown_cons.2 ⟨by decide, hfields⟩

/-! ## Fields that may be left out -/

section Fields

variable {α : Type} {g : α → Json} (hg : ∀ x, (g x).OnOneLine)

include hg

theorem onOneLine_of_mem_optionalField (key : String) (value : Option α) :
    ∀ f ∈ optionalField key (value.map g), f.2.OnOneLine := by
  cases value with
  | none => nofun
  | some x =>
    intro f hf
    obtain rfl : f = (key, g x) := List.mem_singleton.1 hf
    exact hg x

theorem onOneLine_of_mem_listField (key : String) (items : List α) :
    ∀ f ∈ listField key (items.map g), f.2.OnOneLine := by
  unfold listField
  split
  · nofun
  · intro f hf
    obtain rfl : f = (key, .array (items.map g)) := List.mem_singleton.1 hf
    refine onOneLine_array fun v hv => ?_
    obtain ⟨x, -, rfl⟩ := List.mem_map.1 hv
    exact hg x

end Fields

theorem onOneLine_of_mem_flagField (key : String) (value : Bool) :
    ∀ f ∈ flagField key value, f.2.OnOneLine := by
  cases value with
  | false => nofun
  | true =>
    intro f hf
    obtain rfl : f = (key, .bool true) := List.mem_singleton.1 hf
    exact onOneLine_bool true

end Json

/-! ## Commands -/

open Json

/-- A task takes one line, whatever its name. -/
theorem Task.onOneLine_toJson (t : Task) : t.toJson.OnOneLine := by
  have horder : ∀ n, (Json.nat n).OnOneLine := fun n => onOneLine_int n
  refine onOneLine_object (List.forall_mem_append.2 ⟨?_, ?_⟩)
  · rw [List.forall_mem_cons, List.forall_mem_singleton]
    exact ⟨onOneLine_string t.name, onOneLine_int t.minutes⟩
  · exact onOneLine_of_mem_optionalField horder "order" t.order

theorem Notes.onOneLine_of_mem_fields (n : Notes) : ∀ f ∈ n.fields, f.2.OnOneLine := by
  unfold Notes.fields
  repeat' refine List.forall_mem_append.2 ⟨?_, ?_⟩
  · exact onOneLine_of_mem_flagField _ _
  · exact onOneLine_of_mem_flagField _ _
  · exact onOneLine_of_mem_flagField _ _
  · exact onOneLine_of_mem_optionalField onOneLine_string _ _
  · exact onOneLine_of_mem_listField onOneLine_string _ _
  · exact onOneLine_of_mem_optionalField onOneLine_string _ _

/-- A command takes one line, since the line ends in its texts are escaped. -/
theorem Command.onOneLine_toJson (c : Command) : c.toJson.OnOneLine := by
  have htime : ∀ t : ClockTime, t.toJson.OnOneLine := fun t => onOneLine_string t.toText
  refine onOneLine_object ?_
  repeat' refine List.forall_mem_append.2 ⟨?_, ?_⟩
  · rw [List.forall_mem_singleton]
    exact onOneLine_string c.kind.name
  · exact onOneLine_of_mem_optionalField onOneLine_string _ _
  · exact onOneLine_of_mem_optionalField htime _ _
  · exact onOneLine_of_mem_optionalField htime _ _
  · exact onOneLine_of_mem_optionalField onOneLine_int _ _
  · exact onOneLine_of_mem_listField Task.onOneLine_toJson _ _
  · exact onOneLine_of_mem_listField onOneLine_string _ _
  · split
    · nofun
    · rw [List.forall_mem_singleton]
      exact onOneLine_object c.notes.onOneLine_of_mem_fields
  · rw [List.forall_mem_singleton]
    exact onOneLine_bool c.isValid
  · exact onOneLine_of_mem_optionalField onOneLine_string _ _
  · exact onOneLine_of_mem_optionalField onOneLine_string _ _

end Shorthand
