import Shorthand.Proofs.Text.Words

/-!
Pieces of a text put together and cut again. `pieces_append` says where two texts meet,
`pieces_intercalate` that joined pieces are found again, and `fields_trim` that blanks around a text
do not change what stands between its separators.
-/

namespace Shorthand.Text

/-! ## Pieces -/

section Pieces

variable {α : Type} {sep : α → Bool}

theorem pieces_eq_splitOnP (sep : α → Bool) (cs : List α) : pieces sep cs = cs.splitOnP sep := by
  induction cs with
  | nil => rfl
  | cons c cs ih =>
    rw [List.splitOnP_cons_eq_if_modifyHead, pieces, ih]
    by_cases hc : sep c = true
    · rw [if_pos hc, if_pos hc]
    · rw [if_neg hc, if_neg hc]
      cases h : cs.splitOnP sep with
      | nil => exact absurd h (List.splitOnP_ne_nil sep cs)
      | cons p ps => rfl

/-- Pieces that do not hold the separator are found again behind one another. -/
theorem pieces_intercalate [BEq α] [LawfulBEq α] {x : α} {ls : List (List α)} (hne : ls ≠ [])
    (h : ∀ l ∈ ls, x ∉ l) : pieces (· == x) ([x].intercalate ls) = ls := by
  rw [pieces_eq_splitOnP, ← List.splitOn_eq_splitOnP, List.splitOn_intercalate x h hne]

/-- The pieces of a text, put together with the separator, are the text. -/
theorem intercalate_pieces [BEq α] [LawfulBEq α] (x : α) (cs : List α) :
    [x].intercalate (pieces (· == x) cs) = cs := by
  rw [pieces_eq_splitOnP, ← List.splitOn_eq_splitOnP, List.intercalate_splitOn]

theorem intercalate_append {sep : List α} {a b : List (List α)} (ha : a ≠ []) (hb : b ≠ []) :
    sep.intercalate (a ++ b) = sep.intercalate a ++ sep ++ sep.intercalate b := by
  induction a with
  | nil => exact absurd rfl ha
  | cons x a ih =>
    by_cases hnil : a = []
    · rw [hnil, List.intercalate_singleton, List.singleton_append,
        List.intercalate_cons_of_ne_nil hb]
    · rw [List.cons_append,
        List.intercalate_cons_of_ne_nil (List.append_ne_nil_of_left_ne_nil hnil b), ih hnil,
        List.intercalate_cons_of_ne_nil hnil]
      simp only [List.append_assoc]

/-- Where two texts meet, the last piece of the first and the first piece of the second are one. -/
theorem pieces_append (sep : α → Bool) (x y : List α) :
    ∃ front p q back, pieces sep x = front ++ [p] ∧ pieces sep y = q :: back ∧
      pieces sep (x ++ y) = front ++ (p ++ q) :: back := by
  induction x with
  | nil =>
    obtain ⟨q, back, hy⟩ := List.exists_cons_of_ne_nil (pieces_ne_nil sep y)
    exact ⟨[], [], q, back, rfl, hy, by simpa using hy⟩
  | cons c x ih =>
    obtain ⟨front, p, q, back, hx, hy, hxy⟩ := ih
    rw [List.cons_append, pieces, pieces, hx, hxy]
    by_cases hc : sep c = true
    · rw [if_pos hc, if_pos hc]
      exact ⟨[] :: front, p, q, back, rfl, hy, rfl⟩
    · rw [if_neg hc, if_neg hc]
      -- The character joins the first piece, which is the last one too if there is no other.
      cases front with
      | nil => exact ⟨[], c :: p, q, back, rfl, hy, rfl⟩
      | cons f front => exact ⟨(c :: f) :: front, p, q, back, rfl, hy, rfl⟩

/-- Behind a separator another text begins with a piece of its own. -/
theorem exists_pieces_append_of_sep_last {x : List α} (h : ∀ c ∈ x.getLast?, sep c = true)
    (y : List α) :
    ∃ front, pieces sep x = front ++ [[]] ∧ pieces sep (x ++ y) = front ++ pieces sep y := by
  by_cases hnil : x = []
  · exact ⟨[], by rw [hnil]; rfl, by rw [hnil]; rfl⟩
  · have hlast : sep (x.getLast hnil) = true := h _ (List.getLast?_eq_some_getLast hnil)
    have hx : x.dropLast ++ [x.getLast hnil] = x := List.dropLast_concat_getLast hnil
    refine ⟨pieces sep x.dropLast, ?_, ?_⟩
    · conv => lhs; rw [← hx, pieces_append_sep hlast]
      rfl
    · conv => lhs; rw [← hx, List.append_assoc, List.singleton_append, pieces_append_sep hlast]

/-- What holds no separator is joined to the first piece of the text behind it. -/
theorem pieces_append_of_not_sep {w cs p : List α} {ps : List (List α)}
    (hw : ∀ x ∈ w, sep x = false) (hcs : pieces sep cs = p :: ps) :
    pieces sep (w ++ cs) = (w ++ p) :: ps := by
  obtain ⟨front, v, q, back, hv, hq, happend⟩ := pieces_append sep w cs
  rw [pieces_eq_singleton w hw] at hv
  obtain ⟨rfl, hvw⟩ := List.append_eq_singleton_iff.1 hv.symm |>.resolve_right (by simp)
  obtain ⟨rfl, rfl⟩ := List.cons.inj (hcs.symm.trans hq)
  obtain rfl : v = w := by simpa using hvw
  exact happend

/-- A text whose characters are coded one by one has the codes of its pieces for pieces, if the
separator alone is coded with the separator of codes. -/
theorem pieces_flatMap {β : Type} {code : α → List β} {mark : β → Bool}
    (hsep : ∀ c, sep c = true → ∃ b, code c = [b] ∧ mark b = true)
    (hother : ∀ c, sep c = false → ∀ b ∈ code c, mark b = false) (cs : List α) :
    pieces mark (cs.flatMap code) = (pieces sep cs).map (·.flatMap code) := by
  induction cs with
  | nil => rfl
  | cons c cs ih =>
    rw [List.flatMap_cons]
    by_cases hc : sep c = true
    · obtain ⟨b, hb, hmark⟩ := hsep c hc
      rw [hb, List.singleton_append, pieces_cons_sep hmark, pieces_cons_sep hc, ih]
      rfl
    · have hc : sep c = false := by simpa using hc
      obtain ⟨p, ps, hps⟩ := List.exists_cons_of_ne_nil (pieces_ne_nil sep cs)
      have hcs : pieces sep (c :: cs) = (c :: p) :: ps :=
        pieces_append_of_not_sep (w := [c]) (by simpa using hc) hps
      rw [hps] at ih
      rw [hcs, pieces_append_of_not_sep (hother c hc) ih]
      rfl

end Pieces

/-! ## Fields -/

/-- What stands between the separators of a text, each without its outer blanks; where nothing but
blanks stands there is no field. -/
def fields (sep : Char → Bool) (cs : List Char) : List (List Char) :=
  ((pieces sep cs).map trim).filter (!·.isEmpty)

section Fields

variable {sep : Char → Bool} {blanks cs : List Char}

/-- A separator parts the fields in front of it from those behind it. -/
theorem fields_append_sep {c : Char} (hc : sep c = true) (x y : List Char) :
    fields sep (x ++ c :: y) = fields sep x ++ fields sep y := by
  rw [fields, pieces_append_sep hc, List.map_append, List.filter_append, fields, fields]

/-- A text without a separator is one field, or none if it is blank. -/
theorem fields_of_not_sep (h : ∀ c ∈ cs, sep c = false) :
    fields sep cs = if trim cs = [] then [] else [trim cs] := by
  rw [fields, pieces_eq_singleton cs h, List.map_singleton, List.filter_singleton]
  cases trim cs <;> rfl

/-- Blanks in front of a text belong to its first piece, and are cut off there. -/
theorem fields_blanks_append (hblank : ∀ c, isBlank c = true → sep c = false)
    (hb : ∀ c ∈ blanks, isBlank c = true) (cs : List Char) :
    fields sep (blanks ++ cs) = fields sep cs := by
  obtain ⟨p, ps, hps⟩ := List.exists_cons_of_ne_nil (pieces_ne_nil sep cs)
  rw [fields, pieces_append_of_not_sep (fun c hc => hblank c (hb c hc)) hps, fields, hps,
    List.map_cons, List.map_cons, trim_blanks_append hb]

/-- Blanks behind a text belong to its last piece, and are cut off there. -/
theorem fields_append_blanks (hblank : ∀ c, isBlank c = true → sep c = false)
    (hb : ∀ c ∈ blanks, isBlank c = true) (cs : List Char) :
    fields sep (cs ++ blanks) = fields sep cs := by
  obtain ⟨front, p, q, back, hcs, hq, happend⟩ := pieces_append sep cs blanks
  rw [pieces_eq_singleton blanks fun c hc => hblank c (hb c hc)] at hq
  obtain ⟨rfl, rfl⟩ := List.cons.inj hq
  rw [fields, happend, fields, hcs, List.map_append, List.map_append, List.map_singleton,
    List.map_singleton, trim_append_blanks hb]

theorem fields_trim (hblank : ∀ c, isBlank c = true → sep c = false) (cs : List Char) :
    fields sep (trim cs) = fields sep cs := by
  obtain ⟨front, back, hfront, hback, hcs⟩ := exists_blanks_trim cs
  conv => rhs; rw [hcs]
  rw [fields_blanks_append hblank hfront, fields_append_blanks hblank hback]

end Fields

end Shorthand.Text
