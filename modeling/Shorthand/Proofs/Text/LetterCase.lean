import Shorthand.Proofs.Text.Number
import Shorthand.Proofs.Text.Pieces
import Shorthand.Text.Cut

/-!
Texts in small letters. Blanks, digits and separators are no letters, so a text is trimmed, cut and
joined in small letters as it is with its capitals: `words_asciiLower` and `pieces_asciiLower`.
-/

namespace Shorthand.Text

/-! ## Characters -/

theorem toLower_of_not_isUpper {c : Char} (h : c.isUpper = false) : c.toLower = c := by
  have hnot : ¬ (c.val ≥ 'A'.val ∧ c.val ≤ 'Z'.val) := of_decide_eq_false h
  exact dif_neg hnot

/-- What each capital shares with its small letter does not depend on letter case. -/
theorem apply_toLower {α : Type} {p : Char → α}
    (hletters : ∀ n ∈ List.range 26, p (Char.ofNat (65 + n)).toLower = p (Char.ofNat (65 + n)))
    (c : Char) : p c.toLower = p c := by
  by_cases hupper : c.isUpper = true
  · exact forall_isUpper (p := fun c => p c.toLower = p c) hletters hupper
  · rw [toLower_of_not_isUpper (by simpa using hupper)]

@[simp]
theorem isBlank_toLower (c : Char) : isBlank c.toLower = isBlank c :=
  apply_toLower (by decide) c

@[simp]
theorem isDecimal_toLower (c : Char) : isDecimal c.toLower = isDecimal c :=
  apply_toLower (by decide) c

@[simp]
theorem toLower_toLower (c : Char) : c.toLower.toLower = c.toLower :=
  apply_toLower (p := Char.toLower) (by decide) c

@[simp]
theorem lowerChar_toLower (c : Char) : lowerChar c.toLower = lowerChar c :=
  apply_toLower (by decide) c

/-- A character that is no letter: no other becomes it in small letters. -/
def IsMark (sep : Char) : Prop := ∀ c : Char, c.toLower = sep ↔ c = sep

/-- Only the capital letters have to be looked at to see that no letter becomes the character. -/
theorem isMark {sep : Char} (hletters : ∀ n ∈ List.range 26,
    decide ((Char.ofNat (65 + n)).toLower = sep) = decide (Char.ofNat (65 + n) = sep)) :
    IsMark sep := by
  intro c
  exact decide_eq_decide.1 (apply_toLower (p := fun c => decide (c = sep)) hletters c)

theorem isMark_hyphen : IsMark '-' := isMark (by decide)

theorem isMark_slash : IsMark '/' := isMark (by decide)

theorem isMark_at : IsMark '@' := isMark (by decide)

theorem isMark_newline : IsMark '\n' := isMark (by decide)

/-! ## Texts -/

def asciiLower (cs : List Char) : List Char := cs.map Char.toLower

@[simp]
theorem asciiLower_eq_nil_iff {cs : List Char} : asciiLower cs = [] ↔ cs = [] :=
  List.map_eq_nil_iff

@[simp]
theorem isEmpty_asciiLower (cs : List Char) : (asciiLower cs).isEmpty = cs.isEmpty :=
  List.isEmpty_map

@[simp]
theorem length_asciiLower (cs : List Char) : (asciiLower cs).length = cs.length :=
  List.length_map _

theorem asciiLower_append (a b : List Char) : asciiLower (a ++ b) = asciiLower a ++ asciiLower b :=
  List.map_append

theorem asciiLower_asciiLower (cs : List Char) : asciiLower (asciiLower cs) = asciiLower cs := by
  rw [asciiLower, asciiLower, List.map_map]
  exact List.map_congr_left fun c _ => toLower_toLower c

@[simp]
theorem lower_asciiLower (cs : List Char) : lower (asciiLower cs) = lower cs := by
  rw [lower, asciiLower, List.flatMap_map]
  exact List.flatMap_congr fun c _ => lowerChar_toLower c

/-- Nothing is left to be done in a text that is already compared in lower case. -/
theorem asciiLower_lower (cs : List Char) : asciiLower (lower cs) = lower cs := by
  have hself : ∀ c ∈ lower cs, c.toLower = c := by
    intro c hc
    obtain ⟨d, -, hd⟩ := List.mem_flatMap.1 hc
    apply toLower_of_not_isUpper
    by_contra hupper
    have hsmall := lowerChar_of_mem_lowerChar hd
    rw [lowerChar, if_pos (by simpa using hupper)] at hsmall
    have hfix : c.toLower = c := List.singleton_inj.1 hsmall
    exact forall_isUpper (p := fun c => c.toLower ≠ c) (by decide) (by simpa using hupper) hfix
  rw [asciiLower, List.map_congr_left hself, List.map_id']

theorem mem_asciiLower_iff {sep : Char} (hsep : IsMark sep) {cs : List Char} :
    sep ∈ asciiLower cs ↔ sep ∈ cs := by
  rw [asciiLower, List.mem_map]
  constructor
  · rintro ⟨c, hc, hlower⟩
    rwa [← (hsep c).1 hlower]
  · intro h
    exact ⟨sep, h, (hsep sep).2 rfl⟩

theorem all_asciiLower {p : Char → Bool} (hp : ∀ c, p c.toLower = p c) (cs : List Char) :
    (asciiLower cs).all p = cs.all p := by
  rw [asciiLower, List.all_map]
  exact congrArg (cs.all ·) (funext hp)

/-! ## Blanks and separators -/

theorem dropWhile_asciiLower {p : Char → Bool} (hp : ∀ c, p c.toLower = p c) (cs : List Char) :
    (asciiLower cs).dropWhile p = asciiLower (cs.dropWhile p) := by
  rw [asciiLower, List.dropWhile_map, asciiLower, show p ∘ Char.toLower = p from funext hp]

theorem takeWhile_asciiLower {p : Char → Bool} (hp : ∀ c, p c.toLower = p c) (cs : List Char) :
    (asciiLower cs).takeWhile p = asciiLower (cs.takeWhile p) := by
  rw [asciiLower, List.takeWhile_map, asciiLower, show p ∘ Char.toLower = p from funext hp]

theorem trim_asciiLower (cs : List Char) : trim (asciiLower cs) = asciiLower (trim cs) := by
  have hreverse : ∀ ds, (asciiLower ds).reverse = asciiLower ds.reverse :=
    fun ds => List.map_reverse.symm
  rw [trim, trimStart, dropWhile_asciiLower isBlank_toLower, trimEnd, hreverse,
    dropWhile_asciiLower isBlank_toLower, hreverse]
  rfl

theorem pieces_asciiLower {sep : Char → Bool} (hsep : ∀ c, sep c.toLower = sep c)
    (cs : List Char) : pieces sep (asciiLower cs) = (pieces sep cs).map asciiLower := by
  have hpieces : pieces sep (cs.flatMap fun c => [c.toLower]) =
      (pieces sep cs).map (·.flatMap fun c => [c.toLower]) :=
    pieces_flatMap (fun c hc => ⟨c.toLower, rfl, (hsep c).trans hc⟩)
      (fun c hc b hb => by rw [List.mem_singleton.1 hb, hsep, hc]) cs
  simp only [← List.map_eq_flatMap] at hpieces
  exact hpieces

theorem filter_isEmpty_asciiLower (ws : List (List Char)) :
    (ws.map asciiLower).filter (!·.isEmpty) = (ws.filter (!·.isEmpty)).map asciiLower := by
  rw [List.filter_map]
  congr 2
  funext w
  simp

/-- The words of a text in small letters are its words in small letters. -/
theorem words_asciiLower (cs : List Char) : words (asciiLower cs) = (words cs).map asciiLower := by
  rw [words, pieces_asciiLower isBlank_toLower, filter_isEmpty_asciiLower, words]

/-- The fields of a text in small letters are its fields in small letters. -/
theorem fields_asciiLower {sep : Char → Bool} (hsep : ∀ c, sep c.toLower = sep c)
    (cs : List Char) : fields sep (asciiLower cs) = (fields sep cs).map asciiLower := by
  rw [fields, pieces_asciiLower hsep, fields, List.map_map, ← filter_isEmpty_asciiLower,
    List.map_map]
  congr 2
  exact funext trim_asciiLower

theorem joinWith_asciiLower {sep : List Char} (hsep : asciiLower sep = sep)
    (ws : List (List Char)) : joinWith sep (ws.map asciiLower) = asciiLower (joinWith sep ws) := by
  induction ws with
  | nil => rfl
  | cons w ws ih =>
    cases ws with
    | nil =>
      show joinWith sep [asciiLower w] = _
      rw [joinWith_singleton, joinWith_singleton]
    | cons v ws =>
      show joinWith sep (asciiLower w :: asciiLower v :: ws.map asciiLower) = _
      rw [joinWith_cons_cons, joinWith_cons_cons, asciiLower_append, asciiLower_append, hsep]
      exact congrArg (fun rest => asciiLower w ++ (sep ++ rest)) ih

/-! ## Cuts -/

theorem cutAtFirst?_asciiLower {sep : Char} (hsep : IsMark sep) (cs : List Char) :
    cutAtFirst? sep (asciiLower cs) =
      (cutAtFirst? sep cs).map fun p => (asciiLower p.1, asciiLower p.2) := by
  have hp : ∀ c : Char, decide (c.toLower ≠ sep) = decide (c ≠ sep) :=
    fun c => decide_eq_decide.2 (not_congr (hsep c))
  rw [cutAtFirst?, dropWhile_asciiLower hp, takeWhile_asciiLower hp, cutAtFirst?]
  cases cs.dropWhile (· ≠ sep) <;> rfl

/-- A text in small letters is cut at the same place. -/
theorem cutAtLast?_asciiLower {sep : Char} (hsep : IsMark sep) (cs : List Char) :
    cutAtLast? sep (asciiLower cs) =
      (cutAtLast? sep cs).map fun p => (asciiLower p.1, asciiLower p.2) := by
  induction cs with
  | nil => rfl
  | cons c cs ih =>
    show cutAtLast? sep (c.toLower :: asciiLower cs) = _
    rw [cutAtLast?, ih, cutAtLast?]
    cases cutAtLast? sep cs with
    | some p => rfl
    | none =>
      by_cases hc : c = sep
      · simp [hc, (hsep sep).2 rfl]
      · simp [hc, mt (hsep c).1 hc]

/-! ## Numbers -/

theorem isDigit_toLower (c : Char) : c.toLower.isDigit = c.isDigit :=
  apply_toLower (p := Char.isDigit) (by decide) c

/-- Numbers do not depend on the case of letters. -/
theorem readNat?_asciiLower (cs : List Char) : readNat? (asciiLower cs) = readNat? cs := by
  rw [readNat?, readNat?, all_asciiLower isDigit_toLower]
  by_cases hdigits : cs ≠ [] ∧ cs.all Char.isDigit = true
  · have hself : asciiLower cs = cs := by
      have hlower : lower cs = cs :=
        lower_eq_self fun c hc => lowerChar_of_isDigit (List.all_eq_true.1 hdigits.2 c hc)
      rw [← hlower, asciiLower_lower]
    rw [hself]
  · rw [if_neg hdigits, if_neg (by simpa using hdigits)]

theorem readNatUpTo?_asciiLower (bound : Nat) (cs : List Char) :
    readNatUpTo? bound (asciiLower cs) = readNatUpTo? bound cs := by
  rw [readNatUpTo?, readNat?_asciiLower, readNatUpTo?]

/-! ## Strings -/

theorem toList_toLower (s : String) : s.toLower.toList = asciiLower s.toList :=
  String.toList_map

theorem toLower_ofList (cs : List Char) :
    (String.ofList cs).toLower = String.ofList (asciiLower cs) := by
  rw [← String.toList_inj, toList_toLower, String.toList_ofList, String.toList_ofList]

theorem toLower_append (s t : String) : (s ++ t).toLower = s.toLower ++ t.toLower := by
  rw [← String.toList_inj, toList_toLower, String.toList_append, asciiLower_append,
    String.toList_append, toList_toLower, toList_toLower]

/-- Texts that differ in the case of letters do so when they are put together. -/
theorem toLower_append_congr {s s' t t' : String} (hs : s.toLower = s'.toLower)
    (ht : t.toLower = t'.toLower) : (s ++ t).toLower = (s' ++ t').toLower := by
  rw [toLower_append, hs, ht, toLower_append]

@[simp]
theorem toLower_toLower_string (s : String) : s.toLower.toLower = s.toLower := by
  rw [← String.toList_inj, toList_toLower, toList_toLower, asciiLower_asciiLower]

@[simp]
theorem isEmpty_toLower (s : String) : s.toLower.isEmpty = s.isEmpty := by
  rw [Bool.eq_iff_iff, String.isEmpty_iff, String.isEmpty_iff, ← String.toList_eq_nil_iff,
    ← String.toList_eq_nil_iff, toList_toLower, asciiLower_eq_nil_iff]

theorem toLower_intercalate {sep : String} (hsep : sep.toLower = sep) (ls : List String) :
    sep.intercalate (ls.map String.toLower) = (sep.intercalate ls).toLower := by
  have hchars : asciiLower sep.toList = sep.toList := by rw [← toList_toLower, hsep]
  have hlines : (ls.map String.toLower).map String.toList =
      (ls.map String.toList).map asciiLower := by
    rw [List.map_map, List.map_map]
    exact List.map_congr_left fun l _ => toList_toLower l
  rw [← String.toList_inj, String.toList_intercalate, toList_toLower, String.toList_intercalate,
    hlines]
  exact joinWith_asciiLower hchars (ls.map String.toList)

end Shorthand.Text
