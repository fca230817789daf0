import Mathlib.Algebra.Ring.Nat
import Mathlib.Data.List.Forall2
import Shorthand.Proofs.Chain
import Shorthand.Report.Pretty

/-!
Colours in reports. A coloured report is the plain one with codes put in: `Report.colour_decorates`
says that taking the codes out gives the plain report back, for reports of every kind.
-/

namespace Shorthand

open Text

namespace Style

/-! ## Codes put into a text -/

/-- The first text is the second one with codes put in. The second one holds no escape character,
so that every code in the first one was put in. -/
inductive Decorates : List Char → List Char → Prop
  | nil : Decorates [] []
  | char {c : Char} {x y : List Char} (hc : c ≠ '\x1b') (h : Decorates x y) :
      Decorates (c :: x) (c :: y)
  | code {ns x y : List Char} (hns : ns.all (fun c => c.isDigit || c == ';') = true)
      (h : Decorates x y) : Decorates ('\x1b' :: '[' :: (ns ++ 'm' :: x)) y

/-- A code ends at its `m`, whatever stands behind it. -/
theorem afterCode?_append {ns : List Char} (hns : ns.all (fun c => c.isDigit || c == ';') = true)
    (rest : List Char) : afterCode? (ns ++ 'm' :: rest) = some rest := by
  induction ns with
  | nil => rfl
  | cons c ns ih =>
    rw [List.all_cons, Bool.and_eq_true] at hns
    have hc : c ≠ 'm' := by
      rintro rfl
      exact absurd hns.1 (by decide)
    rw [List.cons_append, afterCode?.eq_2 c _ hc, if_pos hns.1, ih hns.2]

theorem withoutCodes_code {ns : List Char} (hns : ns.all (fun c => c.isDigit || c == ';') = true)
    (rest : List Char) :
    withoutCodes ('\x1b' :: '[' :: (ns ++ 'm' :: rest)) = withoutCodes rest := by
  have hafter := afterCode?_append hns rest
  rw [withoutCodes]
  split
  · rename_i behind h
    rw [hafter] at h
    rw [Option.some.inj h]
  · rename_i h
    rw [hafter] at h
    cases h

theorem withoutCodes_char {c : Char} (hc : c ≠ '\x1b') (rest : List Char) :
    withoutCodes (c :: rest) = c :: withoutCodes rest :=
  withoutCodes.eq_2 c rest fun _ h _ => hc h

namespace Decorates

variable {x y x' y' : List Char}

/-- Taking the codes out of a decorated text leaves the plain one. -/
theorem withoutCodes_eq (h : Decorates x y) : withoutCodes x = y := by
  induction h with
  | nil => exact withoutCodes.eq_3
  | char hc _ ih => rw [withoutCodes_char hc, ih]
  | code hns _ ih => rw [withoutCodes_code hns, ih]

/-- A code does not reach over the end of a text, so texts can be put together. -/
theorem append (h : Decorates x y) (h' : Decorates x' y') : Decorates (x ++ x') (y ++ y') := by
  induction h with
  | nil => exact h'
  | char hc _ ih => exact .char hc ih
  | @code ns x y hns _ ih =>
    have htext : '\x1b' :: '[' :: (ns ++ 'm' :: x) ++ x' =
        '\x1b' :: '[' :: (ns ++ 'm' :: (x ++ x')) := by
      simp
    rw [htext]
    exact .code hns ih

/-- The plain text holds no escape character. -/
theorem not_mem (h : Decorates x y) : '\x1b' ∉ y := by
  induction h with
  | nil => exact List.not_mem_nil
  | char hc _ ih => exact List.not_mem_cons_of_ne_of_not_mem (Ne.symm hc) ih
  | code _ _ ih => exact ih

theorem of_not_mem (h : '\x1b' ∉ x) : Decorates x x := by
  induction x with
  | nil => exact .nil
  | cons c x ih =>
    rw [List.mem_cons, not_or] at h
    exact .char (Ne.symm h.1) (ih h.2)

end Decorates

/-! ## Painted texts -/

def Plain (s : String) : Prop := '\x1b' ∉ s.toList

instance (s : String) : Decidable (Plain s) := inferInstanceAs (Decidable (¬ _))

@[simp]
theorem plain_append {s t : String} : Plain (s ++ t) ↔ Plain s ∧ Plain t := by
  rw [Plain, String.toList_append, List.mem_append, not_or, Plain, Plain]

/-- In a text without codes nothing has to be resumed. -/
theorem resumed_eq_self (st : Style) {cs : List Char} (h : '\x1b' ∉ cs) : st.resumed cs = cs := by
  induction cs with
  | nil => exact resumed.eq_3 st
  | cons c cs ih =>
    rw [List.mem_cons, not_or] at h
    rw [resumed.eq_2 st c cs fun _ hc _ => h.1 hc.symm, ih h.2]

theorem all_codes (st : Style) : st.codes.toList.all (fun c => c.isDigit || c == ';') = true := by
  cases st <;> rfl

def Colours (s t : String) : Prop := Decorates s.toList t.toList

namespace Colours

variable {s t s' t' u : String}

theorem of_plain (h : Plain s) : Colours s s := Decorates.of_not_mem h

/-- Coloured texts can be put together. -/
theorem append (h : Colours s t) (h' : Colours s' t') : Colours (s ++ s') (t ++ t') := by
  rw [Colours, String.toList_append, String.toList_append]
  exact Decorates.append h h'

theorem before (hu : Plain u) (h : Colours s t) : Colours (u ++ s) (u ++ t) :=
  (of_plain hu).append h

theorem behind (h : Colours s t) (hu : Plain u) : Colours (s ++ u) (t ++ u) :=
  h.append (of_plain hu)

/-- A painted text stands between two codes, and holds no reset code to be resumed behind. -/
theorem paint (st : Style) (h : Plain s) : Colours (st.paint true s) (st.paint false s) := by
  have hreset : reset = '\x1b' :: '[' :: (['0'] ++ 'm' :: []) := rfl
  have htext : (st.paint true s).toList =
      '\x1b' :: '[' :: (st.codes.toList ++ 'm' :: (s.toList ++ reset)) := by
    rw [Style.paint, if_pos rfl, String.toList_ofList, resumed_eq_self st h, opening]
    simp
  have hend : Decorates (s.toList ++ reset) (s.toList ++ []) := by
    rw [hreset]
    exact (Decorates.of_not_mem h).append (.code (by decide) .nil)
  rw [List.append_nil] at hend
  rw [Colours, htext]
  exact .code st.all_codes hend

theorem join {xs ys : List String} (h : List.Forall₂ Colours xs ys) :
    Colours (String.join xs) (String.join ys) := by
  rw [Colours, String.toList_join, String.toList_join]
  induction h with
  | nil => exact .nil
  | cons hxy _ ih =>
    rw [List.flatMap_cons, List.flatMap_cons]
    exact Decorates.append hxy ih

theorem intercalate (hu : Plain u) {xs ys : List String} (h : List.Forall₂ Colours xs ys) :
    Colours (String.intercalate u xs) (String.intercalate u ys) := by
  induction h with
  | nil => exact .nil
  | cons hxy hrest ih =>
    cases hrest with
    | nil =>
      rw [String.intercalate_singleton, String.intercalate_singleton]
      exact hxy
    | cons hnext hrest =>
      rw [String.intercalate_cons_cons, String.intercalate_cons_cons]
      exact (hxy.behind hu).append ih

theorem plain (h : Colours s t) : Plain t := Decorates.not_mem h

/-- Members of one list, each shown with colours and without. -/
theorem forall₂_map {α : Type} {f g : α → String} {xs : List α}
    (h : ∀ a ∈ xs, Colours (f a) (g a)) : List.Forall₂ Colours (xs.map f) (xs.map g) := by
  rw [List.forall₂_map_left_iff, List.forall₂_map_right_iff, List.forall₂_same]
  exact h

theorem forall₂_flatMap {α : Type} {f g : α → List String} {xs : List α}
    (h : ∀ a ∈ xs, List.Forall₂ Colours (f a) (g a)) :
    List.Forall₂ Colours (xs.flatMap f) (xs.flatMap g) := by
  induction xs with
  | nil => exact .nil
  | cons a xs ih =>
    rw [List.flatMap_cons, List.flatMap_cons]
    exact List.rel_append (h a List.mem_cons_self) (ih fun b hb => h b (List.mem_cons_of_mem a hb))

end Colours

section Agree

variable {ε : Type} {x y : Except ε String}

theorem withoutCodes_of_agree (h : Agree Colours x y) :
    x.map (fun s => withoutCodes s.toList) = y.map String.toList := by
  cases h with
  | ok h => exact congrArg Except.ok h.withoutCodes_eq
  | error e => rfl

theorem plain_of_agree (h : Agree Colours x y) {s : String} (hs : y = .ok s) : Plain s := by
  cases h with
  | ok h => exact Except.ok.inj hs ▸ h.plain
  | error e => cases hs

end Agree

theorem plain_intercalate {u : String} (hu : Plain u) {xs : List String}
    (h : ∀ s ∈ xs, Plain s) : Plain (String.intercalate u xs) := by
  have hself : List.Forall₂ Colours xs xs := by
    rw [List.forall₂_same]
    exact fun s hs => .of_plain (h s hs)
  exact (Colours.intercalate hu hself).plain

end Style

/-! ## Numbers and times -/

open Style

theorem plain_number (n : Nat) : Plain (number n) := by
  intro hmem
  rw [number, String.toList_ofList] at hmem
  exact absurd (isDigit_of_mem_digits hmem) (by decide)

theorem plain_integer (i : Int) : Plain (integer i) := by
  cases i with
  | ofNat n => exact plain_number n
  | negSucc n => exact plain_append.2 ⟨by decide, plain_number (n + 1)⟩

theorem plain_toText (t : ClockTime) : Plain t.toText := by
  have hdigit : ∀ n, n < 10 → Nat.digitChar n ≠ '\x1b' := by decide
  have hh := t.hour.isLt
  have hm := t.minute.isLt
  have hhour := hdigit (t.hour / 10) (by omega)
  have hhour' := hdigit (t.hour % 10) (by omega)
  have hminute := hdigit (t.minute / 10) (by omega)
  have hminute' := hdigit (t.minute % 10) (by omega)
  rw [Plain, ClockTime.toText, String.toList_ofList, ClockTime.toChars, ClockTime.twoDigits,
    ClockTime.twoDigits]
  simp [hhour.symm, hhour'.symm, hminute.symm, hminute'.symm]

/-! ## Reports -/

/-- Adding up task by task gives the exact total, if that fits the word: no sum on the way is
larger. -/
theorem Task.totalMinutes_eq_ok_iff {tasks : List Task} {total : Nat} :
    Task.totalMinutes tasks = .ok total ↔
      (tasks.map Task.minutes).sum ≤ 4294967295 ∧ (tasks.map Task.minutes).sum = total := by
  have hfrom (n : Nat) (hn : n ≤ 4294967295) :
      tasks.foldlM (fun sum t => inNat32 (sum + t.minutes)) n = .ok total ↔
        n + (tasks.map Task.minutes).sum ≤ 4294967295 ∧
          n + (tasks.map Task.minutes).sum = total := by
    induction tasks generalizing n with
    | nil =>
      rw [List.map_nil, List.sum_nil, Nat.add_zero, and_iff_right hn]
      exact Except.ok.injEq n total ▸ Iff.rfl
    | cons t tasks ih =>
      rw [List.foldlM_cons, bind_eq_ok_iff, List.map_cons, List.sum_cons, ← Nat.add_assoc]
      constructor
      · rintro ⟨sum, hsum, hrest⟩
        obtain ⟨hfits, rfl⟩ := inNat32_eq_ok_iff.1 hsum
        exact (ih _ hfits).1 hrest
      · intro h
        have hfits : n + t.minutes ≤ 4294967295 := by omega
        exact ⟨_, inNat32_eq_ok_iff.2 ⟨hfits, rfl⟩, (ih _ hfits).2 h⟩
  have hrun := hfrom 0 (Nat.zero_le _)
  rwa [Nat.zero_add] at hrun

def Command.texts (c : Command) : List String :=
  c.subtype.toList ++ c.tasks.map Task.name ++ c.attendees ++ c.notes.title.toList ++
    c.notes.query.toList ++ c.notes.commands ++ c.hint.toList ++ c.preview.toList

def Completion.texts (c : Completion) : List String :=
  [c.text, c.description] ++ c.shownIn.toList

namespace Report

theorem colours_endLines {xs ys : List String} (h : List.Forall₂ Colours xs ys) :
    Colours (endLines xs) (endLines ys) := by
  apply Colours.join
  rw [List.forall₂_map_left_iff, List.forall₂_map_right_iff]
  exact h.imp fun _ _ hxy => hxy.behind (by decide)

/-! ### Slots -/

/-- What is known of a slot is the same with colours and without. -/
theorem colours_slotParts (s : Slot) :
    List.Forall₂ Colours (slotParts true s) (slotParts false s) := by
  have hspace : Plain " " := by decide
  unfold slotParts
  refine List.rel_append (List.rel_append ?_ ?_) ?_
  · exact Colours.forall₂_map fun t _ =>
      ((Colours.paint .cyan (by decide)).behind hspace).behind (plain_toText t)
  · exact Colours.forall₂_map fun t _ =>
      ((Colours.paint .cyan (by decide)).behind hspace).behind (plain_toText t)
  · exact Colours.forall₂_map fun n _ =>
      (((Colours.paint .cyan (by decide)).behind hspace).behind (plain_integer n)).behind
        (by decide)

theorem colours_slotLine (s : Slot) : Colours (slotLine true s) (slotLine false s) :=
  Colours.intercalate (by decide) (colours_slotParts s)

theorem ne_empty_of_mem_slotParts {coloured : Bool} {s : Slot} {part : String}
    (h : part ∈ slotParts coloured s) : part ≠ "" := by
  -- Every part has a space behind its label.
  simp only [slotParts, List.mem_append, List.mem_map] at h
  rcases h with (⟨t, -, rfl⟩ | ⟨t, -, rfl⟩) | ⟨n, -, rfl⟩ <;>
    simp [String.append_eq_empty_iff]

/-- Nothing is shown of a slot exactly if nothing is known of it. -/
theorem slotParts_eq_nil_iff (coloured : Bool) {s : Slot} :
    slotParts coloured s = [] ↔ s.isEmpty = true := by
  simp [slotParts, Slot.isEmpty, and_assoc]

/-- Whether there is a line about a slot does not depend on the colours: they are never all of a
part. -/
theorem isEmpty_slotLine (coloured : Bool) (s : Slot) :
    (slotLine coloured s).isEmpty = s.isEmpty := by
  rw [Bool.eq_iff_iff, String.isEmpty_iff, ← slotParts_eq_nil_iff coloured, slotLine]
  cases hparts : slotParts coloured s with
  | nil => exact iff_of_true rfl rfl
  | cons part parts =>
    have hpart : part ≠ "" := ne_empty_of_mem_slotParts (hparts ▸ List.mem_cons_self)
    refine iff_of_false (fun hline => ?_) (List.cons_ne_nil part parts)
    cases parts with
    | nil => exact hpart hline
    | cons next parts =>
      rw [String.intercalate_cons_cons, String.append_eq_empty_iff, String.append_eq_empty_iff]
        at hline
      exact hpart hline.1.1

theorem colours_slot (s : Slot) : Colours (slot true s) (slot false s) := by
  unfold slot
  split
  · exact (Colours.paint .red (by decide)).behind (by decide)
  · exact ((Colours.paint .green (by decide)).behind (by decide)).append (colours_slotLine s)

/-! ### Commands -/

theorem colours_labelled (st : Style) {label text : String} (hlabel : Plain label)
    (htext : Plain text) : Colours (labelled true st label text) (labelled false st label text) :=
  (((Colours.paint st hlabel).before (by decide)).behind (by decide)).behind htext

/-- A labelled line that stands only if there is a text for it. -/
theorem colours_labelled_option (st : Style) {label : String} (hlabel : Plain label)
    {text : Option String} (htext : ∀ s ∈ text.toList, Plain s) :
    List.Forall₂ Colours (text.toList.map (labelled true st label))
      (text.toList.map (labelled false st label)) :=
  Colours.forall₂_map fun s hs => colours_labelled st hlabel (htext s hs)

theorem plain_kind (k : CommandKind) : Plain k.name := by
  cases k <;> decide

/-- The first line of a report is the same with colours and without. -/
theorem colours_header {c : Command} (h : ∀ s ∈ c.subtype.toList, Plain s) :
    Colours (header true c) (header false c) := by
  have hkind : Colours (Style.bold.paint true c.kind.name) (Style.bold.paint false c.kind.name) :=
    Colours.paint .bold (plain_kind c.kind)
  unfold header
  refine ((Colours.append (Colours.append hkind ?_) (.of_plain (by decide))).append ?_).append
    (.of_plain (by decide))
  · cases hsubtype : c.subtype with
    | none => exact .of_plain (by decide)
    | some s =>
      have hs : Plain s := h s (by simp [hsubtype])
      exact ((Colours.paint .cyan hs).before (by decide)).behind (by decide)
  · split
    · exact .paint .green (by decide)
    · exact .paint .red (by decide)

theorem plain_taskLine {t : Task} (h : Plain t.name) : Plain (taskLine t) := by
  obtain ⟨name, minutes, order⟩ := t
  have hname : Plain name := h
  have hminutes := plain_number minutes
  cases order with
  | none =>
    simp only [taskLine, plain_append, hname, hminutes]
    decide
  | some n =>
    have horder := plain_number n
    simp only [taskLine, plain_append, hname, hminutes, horder]
    decide

theorem colours_taskLines {tasks : List Task} (h : ∀ t ∈ tasks, Plain t.name) (total : Nat) :
    List.Forall₂ Colours (taskLines true tasks total) (taskLines false tasks total) := by
  unfold taskLines
  split
  · exact .nil
  · refine .cons ?_ (Colours.forall₂_map fun t ht => .of_plain (plain_taskLine (h t ht)))
    exact (colours_labelled .yellow (by decide) (plain_number _)).behind (by decide)

theorem colours_commandLines {commands : List String} (h : ∀ s ∈ commands, Plain s) :
    List.Forall₂ Colours (commandLines true commands) (commandLines false commands) := by
  unfold commandLines
  split
  · exact .nil
  · refine .cons ((Colours.paint .dimmed (by decide)).before (by decide)) ?_
    refine Colours.forall₂_map fun (s, i) hs => .of_plain ?_
    have htext : Plain s := h s (List.fst_mem_of_mem_zipIdx hs)
    have hnumber := plain_number (i + 1)
    simp only [plain_append, htext, hnumber]
    decide

theorem plain_of_mem_flags (notes : Notes) : ∀ s ∈ flags notes, Plain s := by
  have hall : ∀ s ∈ ["needs time", "invalid time", "needs duration"], Plain s := by decide
  intro s hs
  apply hall
  simp only [flags, List.mem_append] at hs
  rcases hs with (hs | hs) | hs <;> split at hs <;> simp_all

/-- A report is the same line by line, and it has the same lines. -/
theorem colours_commandReport {c : Command} (h : ∀ s ∈ c.texts, Plain s) (total : Nat) :
    List.Forall₂ Colours (commandReport true c total) (commandReport false c total) := by
  simp only [Command.texts, List.forall_mem_append, List.forall_mem_map] at h
  obtain ⟨⟨⟨⟨⟨⟨⟨hsubtype, htasks⟩, hattendees⟩, htitle⟩, hquery⟩, hcommands⟩, hhint⟩, hpreview⟩ := h
  unfold commandReport
  -- One goal for each part of the report, in their order.
  iterate 9 refine List.rel_append ?_ ?_
  · exact .cons (colours_header hsubtype) .nil
  · exact colours_labelled_option .boldCyan (by decide) hpreview
  · rw [isEmpty_slotLine, isEmpty_slotLine]
    split
    · exact .nil
    · exact .cons ((colours_slotLine c.slot).before (by decide)) .nil
  · exact colours_taskLines htasks total
  · split
    · exact .nil
    · refine .cons (colours_labelled .magenta (by decide) (plain_intercalate (by decide) ?_)) .nil
      rw [List.forall_mem_map]
      exact fun s hs => plain_append.2 ⟨by decide, hattendees s hs⟩
  · exact colours_labelled_option .dimmed (by decide) htitle
  · exact colours_labelled_option .blue (by decide) hquery
  · exact colours_commandLines hcommands
  · split
    · exact .nil
    · exact .cons (colours_labelled .red (by decide)
        (plain_intercalate (by decide) (plain_of_mem_flags c.notes))) .nil
  · exact colours_labelled_option .boldYellow (by decide) hhint

/-- There is a report with colours where there is one without, and it is the same but for the codes.
-/
theorem agree_command {c : Command} (h : ∀ s ∈ c.texts, Plain s) :
    Agree Colours (command true c) (command false c) :=
  (Agree.refl (fun _ => rfl) (Task.totalMinutes c.tasks)).map fun total _ htotal =>
    htotal ▸ colours_endLines (colours_commandReport h total)

theorem agree_member {c : Command} (h : ∀ s ∈ c.texts, Plain s) (i : Nat) :
    Agree Colours (member true (c, i)) (member false (c, i)) := by
  have hrule : Plain (String.ofList (List.replicate 40 '─')) := by
    rw [Plain, String.toList_ofList, List.mem_replicate]
    exact fun hmem => absurd hmem.2 (by decide)
  have hnumber : Plain ("[" ++ number (i + 1) ++ "]") := by
    have hdigits := plain_number (i + 1)
    simp only [plain_append, hdigits]
    decide
  refine (agree_command h).map fun s t hst => ?_
  exact ((((Colours.paint .dimmed hrule).behind (by decide)).append
    (.paint .dimmed hnumber)).behind (by decide)).append hst

/-- A batch has a report with colours where it has one without, and it is the same but for the
codes. -/
theorem agree_expansion {batch : Command} {expanded : List Command}
    (h : ∀ s ∈ batch.texts, Plain s) (hexpanded : ∀ c ∈ expanded, ∀ s ∈ c.texts, Plain s) :
    Agree Colours (expansion true batch expanded) (expansion false batch expanded) := by
  have hmembers : Agree (List.Forall₂ Colours) (expanded.zipIdx.mapM (member true))
      (expanded.zipIdx.mapM (member false)) :=
    Agree.forall₂_mapM fun (c, i) hc => agree_member (hexpanded c (List.fst_mem_of_mem_zipIdx hc)) i
  exact (agree_command h).bind fun s t hst => hmembers.bind fun ss ts hall =>
    .ok (hst.append (Colours.join hall))

/-! ### Totals -/

/-- A command has a report exactly if the minutes of its tasks fit their word. -/
theorem exists_command_iff (coloured : Bool) {c : Command} :
    (∃ s, command coloured c = .ok s) ↔ (c.tasks.map Task.minutes).sum ≤ 4294967295 := by
  simp only [command, map_eq_ok_iff, Task.totalMinutes_eq_ok_iff]
  constructor
  · rintro ⟨_, total, ⟨hfits, -⟩, -⟩
    exact hfits
  · intro hfits
    exact ⟨_, _, ⟨hfits, rfl⟩, rfl⟩

/-- A batch has a report exactly if each command in it has one, and the batch itself. -/
theorem exists_expansion_iff (coloured : Bool) {batch : Command} {expanded : List Command} :
    (∃ s, expansion coloured batch expanded = .ok s) ↔
      ∀ c ∈ batch :: expanded, (c.tasks.map Task.minutes).sum ≤ 4294967295 := by
  have hmember (c : Command) (i : Nat) : (∃ s, member coloured (c, i) = .ok s) ↔
      (c.tasks.map Task.minutes).sum ≤ 4294967295 := by
    rw [← exists_command_iff coloured]
    simp only [member, map_eq_ok_iff]
    exact ⟨fun ⟨_, s, hs, _⟩ => ⟨s, hs⟩, fun ⟨s, hs⟩ => ⟨_, s, hs, rfl⟩⟩
  have hmembers : (∃ ss, expanded.zipIdx.mapM (member coloured) = .ok ss) ↔
      ∀ c ∈ expanded, (c.tasks.map Task.minutes).sum ≤ 4294967295 := by
    rw [exists_mapM_iff]
    constructor
    · intro h c hc
      obtain ⟨i, hi⟩ := List.mem_iff_getElem?.1 hc
      exact (hmember c i).1 (h _ (List.mem_zipIdx_iff_getElem?.2 hi))
    · rintro h ⟨c, i⟩ hc
      exact (hmember c i).2 (h c (List.fst_mem_of_mem_zipIdx hc))
  rw [List.forall_mem_cons, ← exists_command_iff coloured, ← hmembers, expansion]
  simp only [bind_eq_ok_iff]
  constructor
  · rintro ⟨_, s, hs, ss, hss, -⟩
    exact ⟨⟨s, hs⟩, ⟨ss, hss⟩⟩
  · rintro ⟨⟨s, hs⟩, ⟨ss, hss⟩⟩
    exact ⟨_, s, hs, ss, hss, rfl⟩

/-! ### Completions -/

/-- A confidence is shown in digits, blanks and a few letters. -/
theorem plain_percent (c : Confidence) : Plain (percent c) := by
  have hspaces : ∀ n, Plain (String.ofList (List.replicate n ' ')) := by
    intro n
    rw [Plain, String.toList_ofList, List.mem_replicate]
    exact fun hmem => absurd hmem.2 (by decide)
  unfold percent
  refine plain_append.2 ⟨plain_append.2 ⟨hspaces _, ?_⟩, by decide⟩
  split
  · rename_i negative units _
    cases negative
    · exact plain_append.2 ⟨by decide, plain_number _⟩
    · exact plain_append.2 ⟨by decide, plain_number _⟩
  · split
    · decide
    · decide

theorem colours_completionLines {c : Completion} (h : ∀ s ∈ c.texts, Plain s) :
    List.Forall₂ Colours (completionLines true c) (completionLines false c) := by
  simp only [Completion.texts, List.forall_mem_append, List.forall_mem_cons] at h
  obtain ⟨⟨htext, hdescription, -⟩, hshown⟩ := h
  refine .cons ?_ (Colours.forall₂_map fun s hs => ?_)
  · exact ((((Colours.paint .dimmed (plain_percent c.confidence)).behind (by decide)).append
      (.paint .bold htext)).behind (by decide)).behind hdescription
  · exact (((Colours.paint .dimmed (by decide)).before (by decide)).behind (by decide)).behind
      (hshown s hs)

theorem colours_completions {cs : List Completion} (h : ∀ c ∈ cs, ∀ s ∈ c.texts, Plain s) :
    Colours (completions true cs) (completions false cs) := by
  unfold completions
  split
  · exact .paint .dimmed (by decide)
  · exact colours_endLines (Colours.forall₂_flatMap fun c hc => colours_completionLines (h c hc))

/-! ## All reports -/

/-- Colours only decorate: without its codes a coloured report is the plain one, which holds no
codes. This is said of commands, of batches with what they expand to, of completions and of slots,
as long as no text that is shown holds an escape character itself. A command has a report, with
colours and without, if the minutes of its tasks fit a word. -/
theorem colour_decorates :
    (∀ c : Command, (∀ s ∈ c.texts, Plain s) →
      (command true c).map (fun s => withoutCodes s.toList) = (command false c).map String.toList ∧
        (∀ s, command false c = .ok s → Plain s) ∧
        ((∃ s, command false c = .ok s) ↔ (c.tasks.map Task.minutes).sum ≤ 4294967295)) ∧
    (∀ (batch : Command) (expanded : List Command), (∀ s ∈ batch.texts, Plain s) →
      (∀ c ∈ expanded, ∀ s ∈ c.texts, Plain s) →
      (expansion true batch expanded).map (fun s => withoutCodes s.toList) =
          (expansion false batch expanded).map String.toList ∧
        (∀ s, expansion false batch expanded = .ok s → Plain s) ∧
        ((∃ s, expansion false batch expanded = .ok s) ↔
          ∀ c ∈ batch :: expanded, (c.tasks.map Task.minutes).sum ≤ 4294967295)) ∧
    (∀ cs : List Completion, (∀ c ∈ cs, ∀ s ∈ c.texts, Plain s) →
      withoutCodes (completions true cs).toList = (completions false cs).toList ∧
        Plain (completions false cs)) ∧
    ∀ s : Slot, withoutCodes (slot true s).toList = (slot false s).toList ∧ Plain (slot false s) := by
  have hboth {s t : String} (h : Colours s t) : withoutCodes s.toList = t.toList ∧ Plain t :=
    ⟨h.withoutCodes_eq, h.plain⟩
  refine ⟨fun c h => ?_, fun batch expanded h hexpanded => ?_, fun cs h => ?_, fun s => ?_⟩
  · have hagree := agree_command h
    exact ⟨withoutCodes_of_agree hagree, fun s => plain_of_agree hagree, exists_command_iff false⟩
  · have hagree := agree_expansion h hexpanded
    exact ⟨withoutCodes_of_agree hagree, fun s => plain_of_agree hagree, exists_expansion_iff false⟩
  · exact hboth (colours_completions h)
  · exact hboth (colours_slot s)

/-- A batch of one event whose title looks like the end of a code, which stays where it is. -/
theorem colour_decorates_title :
    (∀ s ∈ Command.texts { kind := .batch, notes := { commands := ["evt [31m @ana"] } }, Plain s) ∧
    (∀ s ∈ Command.texts { kind := .event, notes := { title := some "[31m" } }, Plain s) ∧
    (∀ s ∈ Completion.texts ⟨"blk deep", "Deep work block", .ofPercent 100, some "blk deep 9-11"⟩,
      Plain s) ∧
    (command true { kind := .event, notes := { title := some "[31m" } }).map
        (fun s => withoutCodes s.toList) =
      (command false { kind := .event, notes := { title := some "[31m" } }).map String.toList ∧
    (∃ s, command false { kind := .event, notes := { title := some "[31m" } } = .ok s ∧ Plain s) ∧
    (expansion true { kind := .batch, notes := { commands := ["evt [31m @ana"] } }
        [{ kind := .event, notes := { title := some "[31m" } }]).map
          (fun s => withoutCodes s.toList) =
      (expansion false { kind := .batch, notes := { commands := ["evt [31m @ana"] } }
        [{ kind := .event, notes := { title := some "[31m" } }]).map String.toList ∧
    (∃ s, expansion false { kind := .batch, notes := { commands := ["evt [31m @ana"] } }
        [{ kind := .event, notes := { title := some "[31m" } }] = .ok s ∧ Plain s) ∧
    withoutCodes (completions true
        [⟨"blk deep", "Deep work block", .ofPercent 100, some "blk deep 9-11"⟩]).toList =
      (completions false
        [⟨"blk deep", "Deep work block", .ofPercent 100, some "blk deep 9-11"⟩]).toList := by
  have hbatch : ∀ s ∈ Command.texts
      { kind := .batch, notes := { commands := ["evt [31m @ana"] } }, Plain s := by decide
  have hevent : ∀ s ∈ Command.texts
      { kind := .event, notes := { title := some "[31m" } }, Plain s := by decide
  have hcompletion : ∀ s ∈ Completion.texts
      ⟨"blk deep", "Deep work block", .ofPercent 100, some "blk deep 9-11"⟩, Plain s := by decide
  obtain ⟨hcodes, hplain, hgiven⟩ := colour_decorates.1 _ hevent
  obtain ⟨hcodes', hplain', hgiven'⟩ :=
    colour_decorates.2.1 _ _ hbatch (List.forall_mem_singleton.2 hevent)
  obtain ⟨s, hs⟩ := hgiven.2 (by decide)
  obtain ⟨s', hs'⟩ := hgiven'.2 (by decide)
  exact ⟨hbatch, hevent, hcompletion, hcodes, ⟨s, hs, hplain s hs⟩, hcodes',
    ⟨s', hs', hplain' s' hs'⟩,
    (colour_decorates.2.2.1 _ (List.forall_mem_singleton.2 hcompletion)).1⟩

end Report

end Shorthand
