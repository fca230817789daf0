import Mathlib.Data.List.Basic
import Shorthand.Proofs.Text.Run
import Shorthand.Text.Lower

/-!
Trimmed texts and the words of a text. `words_eq_cons` says that the first word of a text is what
stands in front of its first blank.
-/

namespace Shorthand.Text

/-! ## Trimming -/

theorem trimEnd_prefix_self (cs : List Char) : trimEnd cs <+: cs := by
  have hsuffix := List.dropWhile_suffix (l := cs.reverse) isBlank
  rw [← List.reverse_prefix, List.reverse_reverse] at hsuffix
  exact hsuffix

theorem trim_subset (cs : List Char) : trim cs ⊆ cs :=
  fun _ hc => (List.dropWhile_sublist _).mem ((trimEnd_prefix_self (trimStart cs)).mem hc)

theorem isBlank_of_mem_head?_trim {cs : List Char} {c : Char} (hc : c ∈ (trim cs).head?) :
    isBlank c = false := by
  obtain ⟨tail, htail⟩ := trimEnd_prefix_self (trimStart cs)
  have hne : trim cs ≠ [] := by
    intro hnil
    rw [hnil] at hc
    cases hc
  have hstart : c ∈ (trimStart cs).head? := by
    rw [← htail]
    show c ∈ (trim cs ++ tail).head?
    rwa [List.head?_append_of_ne_nil _ hne]
  exact not_of_mem_head?_dropWhile hstart

theorem isBlank_of_mem_getLast?_trim {cs : List Char} {c : Char} (hc : c ∈ (trim cs).getLast?) :
    isBlank c = false := by
  rw [trim, trimEnd, List.getLast?_reverse] at hc
  exact not_of_mem_head?_dropWhile hc

theorem trimEnd_eq_self {cs : List Char} (hlast : ∀ c ∈ cs.getLast?, isBlank c = false) :
    trimEnd cs = cs := by
  have hnil : ∀ c ∈ ([] : List Char), isBlank c = true := nofun
  have hhead : ∀ c ∈ cs.reverse.head?, isBlank c = false := by
    rwa [List.head?_reverse]
  have hend : cs.reverse.dropWhile isBlank = cs.reverse := dropWhile_run hnil hhead
  rw [trimEnd, hend, List.reverse_reverse]

theorem trim_eq_self {cs : List Char} (hhead : ∀ c ∈ cs.head?, isBlank c = false)
    (hlast : ∀ c ∈ cs.getLast?, isBlank c = false) : trim cs = cs := by
  have hnil : ∀ c ∈ ([] : List Char), isBlank c = true := nofun
  have hstart : trimStart cs = cs := dropWhile_run hnil hhead
  rw [trim, hstart, trimEnd_eq_self hlast]

theorem trim_blanks_append {blanks : List Char} (hb : ∀ c ∈ blanks, isBlank c = true)
    (cs : List Char) : trim (blanks ++ cs) = trim cs := by
  rw [trim, trimStart_blanks_append hb, trim]

theorem trimEnd_append_blanks {blanks : List Char} (hb : ∀ c ∈ blanks, isBlank c = true)
    (cs : List Char) : trimEnd (cs ++ blanks) = trimEnd cs := by
  rw [trimEnd, List.reverse_append, List.dropWhile_append_of_pos (by simpa using hb), trimEnd]

theorem trim_append_blanks {blanks : List Char} (hb : ∀ c ∈ blanks, isBlank c = true)
    (cs : List Char) : trim (cs ++ blanks) = trim cs := by
  rw [trim, trimStart, List.dropWhile_append, trim, trimStart]
  split
  · rename_i hnil
    -- Nothing but blanks: both texts are trimmed to nothing.
    have hall : blanks.dropWhile isBlank = [] := List.dropWhile_eq_nil_iff.2 hb
    rw [hall, List.isEmpty_iff.1 hnil]
  · exact trimEnd_append_blanks hb _

theorem exists_trimEnd_append_blanks (cs : List Char) :
    ∃ blanks, (∀ c ∈ blanks, isBlank c = true) ∧ cs = trimEnd cs ++ blanks := by
  refine ⟨(cs.reverse.takeWhile isBlank).reverse, fun c hc => ?_, ?_⟩
  · exact List.mem_takeWhile_imp (List.mem_reverse.1 hc)
  · rw [trimEnd, ← List.reverse_append, List.takeWhile_append_dropWhile, List.reverse_reverse]

/-- A text is its trimmed text with blanks around it. -/
theorem exists_blanks_trim (cs : List Char) : ∃ front back, (∀ c ∈ front, isBlank c = true) ∧
    (∀ c ∈ back, isBlank c = true) ∧ cs = front ++ (trim cs ++ back) := by
  obtain ⟨front, hfront, hcs⟩ := exists_blanks_append_trimStart cs
  obtain ⟨back, hback, htrim⟩ := exists_trimEnd_append_blanks (trimStart cs)
  refine ⟨front, back, hfront, hback, ?_⟩
  rw [trim, ← htrim]
  exact hcs

theorem trim_trim (cs : List Char) : trim (trim cs) = trim cs := by
  obtain ⟨front, back, hfront, hback, hcs⟩ := exists_blanks_trim cs
  conv => rhs; rw [hcs]
  rw [trim_blanks_append hfront, trim_append_blanks hback]

/-- Blanks at the end are not looked for in front of a character that is none. -/
theorem trimEnd_append {cs : List Char} (hlast : ∀ c ∈ cs.getLast?, isBlank c = false)
    (ds : List Char) : trimEnd (cs ++ ds) = cs ++ trimEnd ds := by
  rw [trimEnd, List.reverse_append, List.dropWhile_append, trimEnd]
  split
  · rename_i hnil
    rw [List.isEmpty_iff.1 hnil, List.reverse_nil, List.append_nil]
    exact trimEnd_eq_self hlast
  · rw [List.reverse_append, List.reverse_reverse]

theorem not_blank_of_all {cs : List Char} (h : cs.all (!isBlank ·) = true) :
    ∀ c ∈ cs, isBlank c = false := by
  intro c hc
  simpa using List.all_eq_true.1 h c hc

theorem trim_eq_self_of_not_blank {cs : List Char} (h : ∀ c ∈ cs, isBlank c = false) :
    trim cs = cs :=
  trim_eq_self (fun c hc => h c (List.mem_of_mem_head? hc))
    fun c hc => h c (List.mem_of_getLast? hc)

/-! ## Joined texts -/

theorem joinWith_cons_cons (sep w v : List Char) (ws : List (List Char)) :
    joinWith sep (w :: v :: ws) = w ++ (sep ++ joinWith sep (v :: ws)) := by
  simp [joinWith]

theorem joinWith_singleton (sep w : List Char) : joinWith sep [w] = w := by
  rw [joinWith, List.intersperse_singleton, List.flatten_singleton]

/-- Joined pieces start with the first of them. -/
theorem exists_joinWith_cons (sep w : List Char) (ws : List (List Char)) :
    ∃ rest, joinWith sep (w :: ws) = w ++ rest := by
  cases ws with
  | nil => exact ⟨[], by rw [joinWith_singleton, List.append_nil]⟩
  | cons v ws => exact ⟨_, joinWith_cons_cons sep w v ws⟩

theorem joinWith_ne_nil {sep : List Char} {ws : List (List Char)} (hne : ws ≠ [])
    (hws : ∀ w ∈ ws, w ≠ []) : joinWith sep ws ≠ [] := by
  obtain ⟨w, ws, rfl⟩ := List.exists_cons_of_ne_nil hne
  have hw : w ≠ [] := hws w List.mem_cons_self
  cases ws with
  | nil => rwa [joinWith_singleton]
  | cons v ws =>
    rw [joinWith_cons_cons]
    exact List.append_ne_nil_of_left_ne_nil hw _

theorem mem_joinWith {sep : List Char} {ws : List (List Char)} {c : Char}
    (hc : c ∈ joinWith sep ws) : c ∈ sep ∨ ∃ w ∈ ws, c ∈ w := by
  induction ws with
  | nil => cases hc
  | cons w ws ih =>
    cases ws with
    | nil =>
      rw [joinWith_singleton] at hc
      exact Or.inr ⟨w, List.mem_cons_self, hc⟩
    | cons v ws =>
      rw [joinWith_cons_cons, List.mem_append, List.mem_append] at hc
      rcases hc with hc | hc | hc
      · exact Or.inr ⟨w, List.mem_cons_self, hc⟩
      · exact Or.inl hc
      · exact (ih hc).imp_right fun ⟨u, hu, hcu⟩ => ⟨u, List.mem_cons_of_mem w hu, hcu⟩

/-! ## Words -/

/-- A text without blanks is one word. -/
theorem words_eq_singleton {w : List Char} (hne : w ≠ []) (h : ∀ c ∈ w, isBlank c = false) :
    words w = [w] := by
  rw [words, pieces_eq_singleton w h, List.filter_cons_of_pos (by simpa using hne)]
  rfl

theorem ne_nil_of_words_eq_cons {cs w : List Char} {ws : List (List Char)}
    (h : words cs = w :: ws) : cs ≠ [] := by
  rintro rfl
  cases h

theorem words_cons_blank {c : Char} (hc : isBlank c = true) (cs : List Char) :
    words (c :: cs) = words cs :=
  words_append_blank hc [] cs

/-- The first word ends at the first blank. -/
theorem words_eq_cons {cs : List Char} (hne : cs ≠ [])
    (hhead : ∀ c ∈ cs.head?, isBlank c = false) :
    words cs = cs.takeWhile (!isBlank ·) :: words (cs.dropWhile (!isBlank ·)) := by
  have hcs : cs.takeWhile (!isBlank ·) ++ cs.dropWhile (!isBlank ·) = cs :=
    List.takeWhile_append_dropWhile
  -- What stands in front of the first blank is one word, and the blank splits off the rest.
  have hword : words (cs.takeWhile (!isBlank ·)) = [cs.takeWhile (!isBlank ·)] := by
    apply words_eq_singleton
    · cases cs with
      | nil => exact absurd rfl hne
      | cons c cs => simp [hhead c rfl]
    · intro c hc
      simpa using List.mem_takeWhile_imp hc
  cases hrest : cs.dropWhile (!isBlank ·) with
  | nil =>
    rw [hrest, List.append_nil] at hcs
    rw [hcs] at hword ⊢
    exact hword
  | cons b rest =>
    have hb : isBlank b = true := by
      have hmem : b ∈ (cs.dropWhile (!isBlank ·)).head? := by
        rw [hrest]
        rfl
      simpa using not_of_mem_head?_dropWhile hmem
    rw [hrest] at hcs
    calc words cs
        _ = words (cs.takeWhile (!isBlank ·) ++ b :: rest) := by rw [hcs]
        _ = cs.takeWhile (!isBlank ·) :: words rest := by
          rw [words_append_blank hb, hword, List.singleton_append]
        _ = cs.takeWhile (!isBlank ·) :: words (b :: rest) := by rw [words_cons_blank hb]

/-- The words of a text in their order, when its first word is cut off. -/
theorem eq_append_of_words_eq_cons {cs first : List Char} {rest : List (List Char)}
    (hhead : ∀ c ∈ cs.head?, isBlank c = false) (h : words cs = first :: rest) :
    cs = first ++ cs.drop first.length ∧ rest = words (cs.drop first.length) := by
  have hne : cs ≠ [] := ne_nil_of_words_eq_cons h
  rw [words_eq_cons hne hhead] at h
  obtain ⟨rfl, rfl⟩ := List.cons.inj h
  have hcs : cs.takeWhile (!isBlank ·) ++ cs.dropWhile (!isBlank ·) = cs :=
    List.takeWhile_append_dropWhile
  have hdrop : cs.drop (cs.takeWhile (!isBlank ·)).length = cs.dropWhile (!isBlank ·) := by
    have hleft : ((cs.takeWhile (!isBlank ·)) ++ cs.dropWhile (!isBlank ·)).drop
        (cs.takeWhile (!isBlank ·)).length = cs.dropWhile (!isBlank ·) := List.drop_left
    rwa [hcs] at hleft
  rw [hdrop]
  exact ⟨hcs.symm, rfl⟩

theorem exists_words_trim {cs : List Char} (hne : trim cs ≠ []) :
    ∃ first rest, words (trim cs) = first :: rest :=
  ⟨_, _, words_eq_cons hne fun _ => isBlank_of_mem_head?_trim⟩

theorem words_blanks_append {blanks : List Char} (hb : ∀ c ∈ blanks, isBlank c = true)
    (cs : List Char) : words (blanks ++ cs) = words cs := by
  induction blanks with
  | nil => rfl
  | cons b blanks ih =>
    obtain ⟨hblank, hrest⟩ := List.forall_mem_cons.1 hb
    rw [List.cons_append, words_cons_blank hblank, ih hrest]

theorem words_append_blanks {blanks : List Char} (hb : ∀ c ∈ blanks, isBlank c = true)
    (cs : List Char) : words (cs ++ blanks) = words cs := by
  cases blanks with
  | nil => rw [List.append_nil]
  | cons b blanks =>
    obtain ⟨hblank, hrest⟩ := List.forall_mem_cons.1 hb
    have hnone : words blanks = [] := by
      rw [← List.append_nil blanks, words_blanks_append hrest]
      rfl
    rw [words_append_blank hblank, hnone, List.append_nil]

/-- Outer blanks do not change the words. -/
theorem words_trim (cs : List Char) : words (trim cs) = words cs := by
  obtain ⟨front, back, hfront, hback, hcs⟩ := exists_blanks_trim cs
  conv => rhs; rw [hcs]
  rw [words_blanks_append hfront, words_append_blanks hback]

theorem length_words_le_one {cs : List Char} (h : (trim cs).length ≤ 1) :
    (words cs).length ≤ 1 := by
  rw [← words_trim]
  cases hcs : trim cs with
  | nil => decide
  | cons c rest =>
    rw [hcs, List.length_cons] at h
    obtain rfl := List.length_eq_zero_iff.1 (Nat.le_zero.1 (Nat.le_of_succ_le_succ h))
    have hc : isBlank c = false := isBlank_of_mem_head?_trim (by rw [hcs]; rfl)
    have hword : words [c] = [[c]] :=
      words_eq_singleton (List.cons_ne_nil _ _) fun d hd => List.mem_singleton.1 hd ▸ hc
    rw [hword]
    exact Nat.le_refl 1

/-- Words are found again when they are written with a space between any two. -/
theorem words_joinWith_space {ws : List (List Char)}
    (h : ∀ w ∈ ws, w ≠ [] ∧ ∀ c ∈ w, isBlank c = false) : words (joinWith [' '] ws) = ws := by
  induction ws with
  | nil => rfl
  | cons w ws ih =>
    obtain ⟨⟨hne, hw⟩, hws⟩ := List.forall_mem_cons.1 h
    cases ws with
    | nil =>
      rw [joinWith_singleton]
      exact words_eq_singleton hne hw
    | cons v ws =>
      rw [joinWith_cons_cons, List.singleton_append, words_append_blank (by decide),
        words_eq_singleton hne hw, ih hws]
      rfl

theorem flatten_pieces {α : Type} (sep : α → Bool) (cs : List α) :
    (pieces sep cs).flatten = cs.filter (!sep ·) := by
  induction cs with
  | nil => rfl
  | cons c cs ih =>
    rw [pieces]
    split
    · rename_i hc
      rw [List.filter_cons_of_neg (by simp [hc]), List.flatten_cons, List.nil_append, ih]
    · rename_i hc
      rw [List.filter_cons_of_pos (by simpa using hc), ← ih]
      cases pieces sep cs <;> rfl

/-- The words of a text, one after another, are the text without its blanks. -/
theorem flatten_words (cs : List Char) : (words cs).flatten = cs.filter (!isBlank ·) := by
  have hfilter : ∀ ws : List (List Char), (ws.filter (!·.isEmpty)).flatten = ws.flatten := by
    intro ws
    induction ws with
    | nil => rfl
    | cons w ws ih => cases w <;> simp [ih]
  rw [words, hfilter, flatten_pieces]

theorem mem_of_mem_words {cs w : List Char} {c : Char} (hw : w ∈ words cs) (hc : c ∈ w) :
    c ∈ cs := by
  have hflat : c ∈ (words cs).flatten := List.mem_flatten.2 ⟨w, hw, hc⟩
  rw [flatten_words] at hflat
  exact (List.mem_filter.1 hflat).1

/-! ## Lower case -/

/-- A fact about capital letters has to be looked at for twenty-six characters. -/
theorem forall_isUpper {p : Char → Prop} (h : ∀ n ∈ List.range 26, p (Char.ofNat (65 + n)))
    {c : Char} (hc : c.isUpper = true) : p c := by
  have hbounds : c.val ≥ 'A'.val ∧ c.val ≤ 'Z'.val := of_decide_eq_true hc
  have hlo : 65 ≤ c.toNat := hbounds.1
  have hhi : c.toNat ≤ 90 := hbounds.2
  have hp := h (c.toNat - 65) (List.mem_range.2 (by omega))
  rwa [show 65 + (c.toNat - 65) = c.toNat by omega, Char.ofNat_toNat] at hp

/-- What a character can become in lower case: itself, the small letter, or one of the characters
that the Kelvin sign and the dotted capital become. -/
theorem lowerChar_cases {c d : Char} (hd : d ∈ lowerChar c) :
    (d = c ∧ lowerChar c = [c]) ∨ (c.isUpper = true ∧ d = c.toLower) ∨
      d = 'k' ∨ d = 'i' ∨ d = '\u0307' := by
  unfold lowerChar at hd
  split at hd
  · rename_i hupper
    exact Or.inr (Or.inl ⟨hupper, List.mem_singleton.1 hd⟩)
  · rename_i hupper
    split at hd
    · exact Or.inr (Or.inr (Or.inl (List.mem_singleton.1 hd)))
    · rename_i hkelvin
      split at hd
      · have hmem : d = 'i' ∨ d = '\u0307' := by simpa using hd
        exact Or.inr (Or.inr (Or.inr hmem))
      · rename_i hdotted
        exact Or.inl ⟨List.mem_singleton.1 hd,
          lowerChar_of_not_upper (by simpa using hupper) hkelvin hdotted⟩

theorem isBlank_of_mem_lowerChar {c d : Char} (hc : isBlank c = false) (hd : d ∈ lowerChar c) :
    isBlank d = false := by
  rcases lowerChar_cases hd with ⟨rfl, -⟩ | ⟨hupper, rfl⟩ | rfl | rfl | rfl
  · exact hc
  · exact forall_isUpper (p := fun c => isBlank c.toLower = false) (by decide) hupper
  all_goals decide

theorem isBlank_of_mem_lower {cs : List Char} (h : ∀ c ∈ cs, isBlank c = false) :
    ∀ c ∈ lower cs, isBlank c = false := by
  intro c hc
  obtain ⟨d, hd, hc⟩ := List.mem_flatMap.1 hc
  exact isBlank_of_mem_lowerChar (h d hd) hc

/-- No character of a class without capital letters changes in lower case. -/
theorem lowerChar_of_class {p : Char → Bool}
    (hletters : ∀ n ∈ List.range 26, p (Char.ofNat (65 + n)) = false) (hkelvin : p '\u212A' = false)
    (hdotted : p '\u0130' = false) {c : Char} (h : p c = true) : lowerChar c = [c] := by
  have hother : ∀ {d}, p d = false → c ≠ d := by
    rintro d hd rfl
    rw [hd] at h
    cases h
  have hupper : c.isUpper = false := by
    by_contra hupper
    exact hother (forall_isUpper (p := fun c => p c = false) hletters (by simpa using hupper)) rfl
  exact lowerChar_of_not_upper hupper (hother hkelvin) (hother hdotted)

theorem lowerChar_of_isBlank {c : Char} (h : isBlank c = true) : lowerChar c = [c] :=
  lowerChar_of_class (by decide) (by decide) (by decide) h

/-- Lower case makes no blank out of another character. -/
theorem isBlank_of_lower {cs : List Char} (h : ∀ c ∈ lower cs, isBlank c = false) :
    ∀ c ∈ cs, isBlank c = false := by
  intro c hc
  by_contra hblank
  have hself : c ∈ lowerChar c := by
    rw [lowerChar_of_isBlank (by simpa using hblank)]
    exact List.mem_singleton_self c
  exact hblank (h c (List.mem_flatMap.2 ⟨c, hc, hself⟩))

theorem lowerChar_of_isDecimal {c : Char} (h : isDecimal c = true) : lowerChar c = [c] :=
  lowerChar_of_class (by decide) (by decide) (by decide) h

theorem lowerChar_of_isDigit {c : Char} (h : c.isDigit = true) : lowerChar c = [c] :=
  lowerChar_of_isDecimal (isDecimal_of_isDigit h)

theorem lower_eq_self {cs : List Char} (h : ∀ c ∈ cs, lowerChar c = [c]) : lower cs = cs := by
  rw [lower, List.flatMap_congr h, List.flatMap_singleton']

theorem lowerChar_of_mem_lowerChar {c d : Char} (hd : d ∈ lowerChar c) : lowerChar d = [d] := by
  rcases lowerChar_cases hd with ⟨rfl, hself⟩ | ⟨hupper, rfl⟩ | rfl | rfl | rfl
  · exact hself
  · exact forall_isUpper (p := fun c => lowerChar c.toLower = [c.toLower]) (by decide) hupper
  all_goals decide

/-- Lower case has no lower case of its own. -/
theorem lower_lower (cs : List Char) : lower (lower cs) = lower cs := by
  refine lower_eq_self fun c hc => ?_
  obtain ⟨d, -, hc⟩ := List.mem_flatMap.1 hc
  exact lowerChar_of_mem_lowerChar hc

/-- Lower case neither makes a digit nor changes one. -/
theorem eq_of_isDecimal_of_mem_lowerChar {c d : Char} (hd : d ∈ lowerChar c)
    (hdec : isDecimal d = true) : d = c := by
  rcases lowerChar_cases hd with ⟨rfl, -⟩ | ⟨hupper, rfl⟩ | rfl | rfl | rfl
  · rfl
  · have hletter : isDecimal c.toLower = false :=
      forall_isUpper (p := fun c => isDecimal c.toLower = false) (by decide) hupper
    rw [hletter] at hdec
    cases hdec
  all_goals exact absurd hdec (by decide)

theorem mem_of_isDecimal_of_mem_lower {cs : List Char} {d : Char} (hd : d ∈ lower cs)
    (hdec : isDecimal d = true) : d ∈ cs := by
  obtain ⟨c, hc, hd⟩ := List.mem_flatMap.1 hd
  rw [eq_of_isDecimal_of_mem_lowerChar hd hdec]
  exact hc

end Shorthand.Text
