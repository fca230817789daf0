import Shorthand.Proofs.Text.Pieces

/-!
Texts of the same words. They differ in the blanks around and between their words only, and
`map_words_fields` says that what stands between their separators is of the same words too.
-/

namespace Shorthand.Text

/-! ## Where words meet -/

/-- Words do not run together where a text ends with a blank. -/
theorem words_append_of_blank_last {a : List Char} (h : ∀ c ∈ a.getLast?, isBlank c = true)
    (b : List Char) : words (a ++ b) = words a ++ words b := by
  obtain ⟨front, ha, hab⟩ := exists_pieces_append_of_sep_last h b
  rw [words, hab, List.filter_append, words, ha, List.filter_append, words]
  show _ = _ ++ [] ++ _
  rw [List.append_nil]

/-- Words do not run together where a text begins with a blank. -/
theorem words_append_of_blank_head {b : List Char} (h : ∀ c ∈ b.head?, isBlank c = true)
    (a : List Char) : words (a ++ b) = words a ++ words b := by
  cases b with
  | nil => rw [List.append_nil, show words [] = [] from rfl, List.append_nil]
  | cons c b => rw [words_append_blank (h c rfl), words_cons_blank (h c rfl)]

/-- A text begins with its first word and goes on with a blank. -/
theorem exists_append_of_words_eq_cons {x w : List Char} {ws : List (List Char)}
    (hhead : ∀ c ∈ x.head?, isBlank c = false) (h : words x = w :: ws) :
    ∃ rest, x = w ++ rest ∧ (∀ c ∈ rest.head?, isBlank c = true) ∧ words rest = ws := by
  have hne : x ≠ [] := ne_nil_of_words_eq_cons h
  rw [words_eq_cons hne hhead] at h
  obtain ⟨rfl, rfl⟩ := List.cons.inj h
  refine ⟨x.dropWhile (!isBlank ·), List.takeWhile_append_dropWhile.symm, fun c hc => ?_, rfl⟩
  simpa using not_of_mem_head?_dropWhile hc

/-- A text of words begins with its first word, behind blanks, and goes on with a blank. -/
theorem exists_of_words_eq_cons {x w : List Char} {ws : List (List Char)} (h : words x = w :: ws) :
    ∃ blanks rest, x = blanks ++ (w ++ rest) ∧ (∀ c ∈ blanks, isBlank c = true) ∧
      (∀ c ∈ rest.head?, isBlank c = true) ∧ words rest = ws := by
  obtain ⟨blanks, hblanks, hx⟩ := exists_blanks_append_trimStart x
  rw [hx, words_blanks_append hblanks] at h
  obtain ⟨rest, hstart, hrest⟩ :=
    exists_append_of_words_eq_cons (fun c => not_of_mem_head?_dropWhile) h
  exact ⟨blanks, rest, by rw [← hstart]; exact hx, hblanks, hrest⟩

/-- A text has no words exactly if it is blank. -/
theorem words_eq_nil_iff {x : List Char} : words x = [] ↔ trim x = [] := by
  constructor
  · intro h
    by_contra hne
    obtain ⟨first, rest, hwords⟩ := exists_words_trim hne
    rw [words_trim, h] at hwords
    cases hwords
  · intro h
    rw [← words_trim, h]
    rfl

theorem isBlank_of_words_eq_nil {x : List Char} (h : words x = []) :
    ∀ c ∈ x, isBlank c = true := by
  obtain ⟨front, back, hfront, hback, hx⟩ := exists_blanks_trim x
  rw [words_eq_nil_iff.1 h, List.nil_append] at hx
  rw [hx]
  intro c hc
  exact (List.mem_append.1 hc).elim (hfront c) (hback c)

/-- Two texts of the same words are blank, or begin with one word behind blanks and go on with
texts of the same words. -/
theorem words_induction {r : List Char → List Char → Prop}
    (hblank : ∀ x y, (∀ c ∈ x, isBlank c = true) → (∀ c ∈ y, isBlank c = true) → r x y)
    (hword : ∀ front front' w rest rest', (∀ c ∈ front, isBlank c = true) →
      (∀ c ∈ front', isBlank c = true) → (∀ c ∈ rest.head?, isBlank c = true) →
      (∀ c ∈ rest'.head?, isBlank c = true) → r rest rest' →
      r (front ++ (w ++ rest)) (front' ++ (w ++ rest')))
    {x y : List Char} (h : words x = words y) : r x y := by
  generalize hws : words y = ws at h
  induction ws generalizing x y with
  | nil => exact hblank x y (isBlank_of_words_eq_nil h) (isBlank_of_words_eq_nil hws)
  | cons w ws ih =>
    obtain ⟨front, rest, rfl, hfront, hrest, hx⟩ := exists_of_words_eq_cons h
    obtain ⟨front', rest', rfl, hfront', hrest', hy⟩ := exists_of_words_eq_cons hws
    exact hword front front' w rest rest' hfront hfront' hrest hrest' (ih hy hx)

/-- A change of single characters that keeps blanks makes the same words of the same words. -/
theorem words_map {f : Char → Char} (hf : ∀ c, isBlank c = true → isBlank (f c) = true)
    {x y : List Char} (h : words x = words y) : words (x.map f) = words (y.map f) := by
  have hblanks : ∀ {b : List Char}, (∀ c ∈ b, isBlank c = true) →
      ∀ c ∈ b.map f, isBlank c = true := by
    intro b hb c hc
    obtain ⟨d, hd, rfl⟩ := List.mem_map.1 hc
    exact hf d (hb d hd)
  have hhead : ∀ {b : List Char}, (∀ c ∈ b.head?, isBlank c = true) →
      ∀ c ∈ (b.map f).head?, isBlank c = true := by
    intro b hb c hc
    rw [List.head?_map] at hc
    obtain ⟨d, hd, rfl⟩ := Option.map_eq_some_iff.1 hc
    exact hf d (hb d hd)
  refine words_induction (r := fun x y => words (x.map f) = words (y.map f)) ?_ ?_ h
  · intro x y hx hy
    rw [← List.append_nil (x.map f), ← List.append_nil (y.map f), words_blanks_append (hblanks hx),
      words_blanks_append (hblanks hy)]
  · intro front front' w rest rest' hfront hfront' hrest hrest' ih
    rw [List.map_append, List.map_append, List.map_append, List.map_append,
      words_blanks_append (hblanks hfront), words_blanks_append (hblanks hfront'),
      words_append_of_blank_head (hhead hrest), words_append_of_blank_head (hhead hrest'), ih]

/-! ## The two ends of a text -/

/-- Characters that are dropped from the front of a text are dropped from its first word, and
nothing of the blanks behind it. -/
theorem words_dropWhile {p : Char → Bool} (hp : ∀ c, isBlank c = true → p c = false)
    {x y : List Char} (hx : ∀ c ∈ x.head?, isBlank c = false)
    (hy : ∀ c ∈ y.head?, isBlank c = false) (h : words x = words y) :
    words (x.dropWhile p) = words (y.dropWhile p) := by
  -- What is dropped ends in the first word at the latest, for no blank is dropped.
  have hdrop : ∀ (w : List Char) {rest : List Char}, (∀ c ∈ rest.head?, isBlank c = true) →
      words ((w ++ rest).dropWhile p) = words (w.dropWhile p) ++ words rest := by
    intro w rest hrest
    have hstop : ([] ++ rest).dropWhile p = rest :=
      dropWhile_run nofun fun c hc => hp c (hrest c hc)
    rw [List.nil_append] at hstop
    rw [List.dropWhile_append, hstop]
    by_cases hw : (w.dropWhile p).isEmpty = true
    · rw [if_pos hw, List.isEmpty_iff.1 hw]
      rfl
    · rw [if_neg hw, words_append_of_blank_head hrest]
  have hnil : ∀ {z : List Char}, (∀ c ∈ z.head?, isBlank c = false) → words z = [] → z = [] := by
    intro z hz hwords
    cases z with
    | nil => rfl
    | cons c z =>
      have hc : isBlank c = true := isBlank_of_words_eq_nil hwords c List.mem_cons_self
      rw [hz c rfl] at hc
      cases hc
  cases hws : words y with
  | nil => rw [hnil hx (h.trans hws), hnil hy hws]
  | cons w ws =>
    obtain ⟨rest, rfl, hrest, hwords⟩ := exists_append_of_words_eq_cons hx (h.trans hws)
    obtain ⟨rest', rfl, hrest', hwords'⟩ := exists_append_of_words_eq_cons hy hws
    rw [hdrop w hrest, hdrop w hrest', hwords, hwords']

/-- A text ends in characters that are no blanks, none at all if a blank is its last one. -/
theorem exists_append_of_last_blank (x : List Char) : ∃ a b, x = a ++ b ∧
    (∀ c ∈ a.getLast?, isBlank c = true) ∧ ∀ c ∈ b, isBlank c = false := by
  refine ⟨(x.reverse.dropWhile (!isBlank ·)).reverse, (x.reverse.takeWhile (!isBlank ·)).reverse,
    ?_, fun c hc => ?_, fun c hc => ?_⟩
  · rw [← List.reverse_append, List.takeWhile_append_dropWhile, List.reverse_reverse]
  · rw [List.getLast?_reverse] at hc
    simpa using not_of_mem_head?_dropWhile hc
  · simpa using List.mem_takeWhile_imp (List.mem_reverse.1 hc)

/-- A text that does not end in a blank ends in a word. -/
theorem exists_append_of_last_word {x : List Char} (hne : x ≠ [])
    (hx : ∀ c ∈ x.getLast?, isBlank c = false) : ∃ a w, x = a ++ w ∧
      (∀ c ∈ a.getLast?, isBlank c = true) ∧ w ≠ [] ∧ ∀ c ∈ w, isBlank c = false := by
  obtain ⟨a, w, rfl, ha, hw⟩ := exists_append_of_last_blank x
  refine ⟨a, w, rfl, ha, ?_, hw⟩
  rintro rfl
  rw [List.append_nil] at hne hx
  have hlast := List.getLast?_eq_some_getLast hne
  have hblank := ha _ hlast
  rw [hx _ hlast] at hblank
  cases hblank

/-- Where a text ends in part of a word, every text of the same words ends in it, and the words in
front are the same. -/
theorem exists_append_of_words_eq {front v y : List Char} (hne : v ≠ [])
    (hv : ∀ c ∈ v, isBlank c = false) (hy : ∀ c ∈ y.getLast?, isBlank c = false)
    (h : words (front ++ v) = words y) :
    ∃ front', y = front' ++ v ∧ words front' = words front := by
  obtain ⟨a, b, rfl, ha, hb⟩ := exists_append_of_last_blank front
  have hbv : ∀ c ∈ b ++ v, isBlank c = false := by
    intro c hc
    exact (List.mem_append.1 hc).elim (hb c) (hv c)
  have hlast : words ((a ++ b) ++ v) = words a ++ [b ++ v] := by
    rw [List.append_assoc, words_append_of_blank_last ha,
      words_eq_singleton (List.append_ne_nil_of_right_ne_nil b hne) hbv]
  -- The other text has this last word too, so it ends in a word and nowhere else.
  have hy_ne : y ≠ [] := by
    rintro rfl
    rw [hlast] at h
    exact absurd h (List.append_ne_nil_of_right_ne_nil _ (List.cons_ne_nil _ _))
  obtain ⟨a', u, rfl, ha', hu_ne, hu⟩ := exists_append_of_last_word hy_ne hy
  rw [hlast, words_append_of_blank_last ha', words_eq_singleton hu_ne hu] at h
  obtain ⟨hwords, hword⟩ := List.append_inj' h rfl
  refine ⟨a' ++ b, ?_, ?_⟩
  · rw [List.append_assoc, ← List.singleton_inj.1 hword]
  · rw [words_append_of_blank_last ha', words_append_of_blank_last ha, hwords]

/-! ## Inside of a word -/

/-- A word of a text stands in it in one piece. -/
theorem infix_of_mem_words {cs w : List Char} (h : w ∈ words cs) : w <:+: cs := by
  generalize hws : words cs = ws at h
  induction ws generalizing cs with
  | nil => cases h
  | cons v ws ih =>
    obtain ⟨front, rest, rfl, -, -, hrest⟩ := exists_of_words_eq_cons hws
    rcases List.mem_cons.1 h with rfl | h
    · exact ⟨front, rest, List.append_assoc _ _ _⟩
    · exact (ih hrest h).trans
        ((List.suffix_append v rest).trans (List.suffix_append front (v ++ rest))).isInfix

/-- A text without blanks that stands in a text stands inside of one of its words. -/
theorem infix_iff_exists_word {x cs : List Char} (hne : x ≠ []) (hx : ∀ c ∈ x, isBlank c = false) :
    x <:+: cs ↔ ∃ w ∈ words cs, x <:+: w := by
  constructor
  · rintro ⟨before, behind, rfl⟩
    obtain ⟨a, v, rfl, ha, hv⟩ := exists_append_of_last_blank before
    obtain ⟨u, b, rfl, hu, hb⟩ : ∃ u b, behind = u ++ b ∧ (∀ c ∈ u, isBlank c = false) ∧
        ∀ c ∈ b.head?, isBlank c = true := by
      refine ⟨behind.takeWhile (!isBlank ·), behind.dropWhile (!isBlank ·),
        List.takeWhile_append_dropWhile.symm, fun c hc => ?_, fun c hc => ?_⟩
      · simpa using List.mem_takeWhile_imp hc
      · simpa using not_of_mem_head?_dropWhile hc
    have hword : ∀ c ∈ v ++ x ++ u, isBlank c = false := by
      intro c hc
      rcases List.mem_append.1 hc with hc | hc
      · exact (List.mem_append.1 hc).elim (hv c) (hx c)
      · exact hu c hc
    have hcs : a ++ v ++ x ++ (u ++ b) = a ++ (v ++ x ++ u ++ b) := by simp
    refine ⟨v ++ x ++ u, ?_, v, u, rfl⟩
    rw [hcs, words_append_of_blank_last ha, words_append_of_blank_head hb,
      words_eq_singleton (by simp [hne]) hword]
    exact List.mem_append_right _ List.mem_cons_self
  · rintro ⟨w, hw, h⟩
    exact h.trans (infix_of_mem_words hw)

/-! ## Pieces of the same words -/

/-- The first piece of a text begins as the text does, unless it is empty. -/
theorem mem_head?_of_pieces {sep : Char → Bool} {x q : List Char} {back : List (List Char)}
    (h : pieces sep x = q :: back) {c : Char} (hc : c ∈ q.head?) : c ∈ x.head? := by
  cases x with
  | nil =>
    obtain ⟨rfl, -⟩ := List.cons.inj h
    exact hc
  | cons d x =>
    by_cases hd : sep d = true
    · rw [pieces_cons_sep hd] at h
      obtain ⟨rfl, -⟩ := List.cons.inj h
      cases hc
    · obtain ⟨p, ps, hps⟩ := List.exists_cons_of_ne_nil (pieces_ne_nil sep x)
      have hpieces : pieces sep (d :: x) = (d :: p) :: ps :=
        pieces_append_of_not_sep (w := [d]) (by simpa using hd) hps
      rw [hpieces] at h
      obtain ⟨rfl, -⟩ := List.cons.inj h
      exact hc

section Pieces

variable {sep : Char → Bool} (hsep : ∀ c, isBlank c = true → sep c = false)

theorem map_words_pieces_append {x y : List Char} (hx : ∀ c ∈ x.head?, isBlank c = true)
    (hy : ∀ c ∈ y.head?, isBlank c = true)
    (h : (pieces sep x).map words = (pieces sep y).map words) (w : List Char) :
    (pieces sep (w ++ x)).map words = (pieces sep (w ++ y)).map words := by
  obtain ⟨front, p, q, back, hw, hq, hwx⟩ := pieces_append sep w x
  obtain ⟨front', p', q', back', hw', hq', hwy⟩ := pieces_append sep w y
  obtain ⟨rfl, hp⟩ := List.append_inj' (hw.symm.trans hw') rfl
  obtain rfl : p = p' := List.singleton_inj.1 hp
  rw [hq, hq'] at h
  obtain ⟨hwords, hback⟩ := List.cons.inj h
  -- Where the texts meet, the words of the two pieces stay apart.
  have hjoin : words (p ++ q) = words (p ++ q') := by
    rw [words_append_of_blank_head fun c hc => hx c (mem_head?_of_pieces hq hc), hwords,
      words_append_of_blank_head fun c hc => hy c (mem_head?_of_pieces hq' hc)]
  rw [hwx, hwy, List.map_append, List.map_append, List.map_cons, List.map_cons, hjoin]
  exact congrArg _ (congrArg _ hback)

include hsep

theorem map_words_pieces_blanks_append {blanks : List Char} (hb : ∀ c ∈ blanks, isBlank c = true)
    (x : List Char) : (pieces sep (blanks ++ x)).map words = (pieces sep x).map words := by
  obtain ⟨p, ps, hps⟩ := List.exists_cons_of_ne_nil (pieces_ne_nil sep x)
  rw [pieces_append_of_not_sep (fun c hc => hsep c (hb c hc)) hps, hps, List.map_cons,
    List.map_cons, words_blanks_append hb]

/-- Texts of the same words are cut into pieces of the same words. -/
theorem map_words_pieces {x y : List Char} (h : words x = words y) :
    (pieces sep x).map words = (pieces sep y).map words := by
  refine words_induction (r := fun x y => (pieces sep x).map words = (pieces sep y).map words)
    ?_ ?_ h
  · intro x y hx hy
    rw [← List.append_nil x, ← List.append_nil y, map_words_pieces_blanks_append hsep hx,
      map_words_pieces_blanks_append hsep hy]
  · intro front front' w rest rest' hfront hfront' hrest hrest' ih
    rw [map_words_pieces_blanks_append hsep hfront, map_words_pieces_blanks_append hsep hfront']
    exact map_words_pieces_append hrest hrest' ih w

omit hsep in
theorem map_words_fields_eq_filter (x : List Char) :
    (fields sep x).map words = ((pieces sep x).map words).filter (!·.isEmpty) := by
  have hempty : ((!·.isEmpty) : List Char → Bool) ∘ trim =
      ((!·.isEmpty) : List (List Char) → Bool) ∘ words := by
    funext p
    show (!(trim p).isEmpty) = !(words p).isEmpty
    rw [Bool.not_inj_iff, Bool.eq_iff_iff, List.isEmpty_iff, List.isEmpty_iff, words_eq_nil_iff]
  have htrim : words ∘ trim = words := funext words_trim
  rw [fields, List.filter_map, List.filter_map, List.map_map, hempty, htrim]

/-- What stands between the separators of a text are the same words, whatever the blanks. -/
theorem map_words_fields {x y : List Char} (h : words x = words y) :
    (fields sep x).map words = (fields sep y).map words := by
  rw [map_words_fields_eq_filter, map_words_pieces hsep h, map_words_fields_eq_filter]

end Pieces

end Shorthand.Text
