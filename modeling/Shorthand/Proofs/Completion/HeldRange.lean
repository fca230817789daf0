import Shorthand.Proofs.Completion.LastWord

/-!
Ranges that a line holds already. A range is looked for at its seam, where one time ends and the
other begins; `holdsSeam_iff_of_edged` says that a range of the time grammar shows one unless its
hyphen is doubled, and `Completion.rangeFromHour_beside_range` what is offered beside such a range.
-/

namespace Shorthand

open Text

/-! ## Seams -/

/-- Somewhere in the text stands a digit, one of the `halves` behind it, a hyphen, and a digit. -/
def HoldsSeam (halves : List (List Char)) (cs : List Char) : Prop :=
  ∃ d half e, isDecimal d = true ∧ half ∈ halves ∧ isDecimal e = true ∧
    d :: (half ++ ['-', e]) <:+: cs

def writtenHalves : List (List Char) := [[], ['a', 'm'], ['p', 'm']]

/-- A seam lies inside of a word. -/
theorem holdsSeam_iff_exists_word {halves : List (List Char)}
    (hhalves : ∀ half ∈ halves, ∀ c ∈ half, isBlank c = false) {cs : List Char} :
    HoldsSeam halves cs ↔ ∃ w ∈ words cs, HoldsSeam halves w := by
  have hclear : ∀ {d e : Char} {half : List Char}, isDecimal d = true → half ∈ halves →
      isDecimal e = true → ∀ c ∈ d :: (half ++ ['-', e]), isBlank c = false := by
    intro d e half hd hhalf he c hc
    simp only [List.mem_cons, List.mem_append, List.not_mem_nil, or_false] at hc
    rcases hc with rfl | hc | rfl | rfl
    · exact isBlank_of_isDecimal hd
    · exact hhalves half hhalf c hc
    · decide
    · exact isBlank_of_isDecimal he
  constructor
  · rintro ⟨d, half, e, hd, hhalf, he, h⟩
    obtain ⟨w, hw, h⟩ :=
      (infix_iff_exists_word (List.cons_ne_nil _ _) (hclear hd hhalf he)).1 h
    exact ⟨w, hw, d, half, e, hd, hhalf, he, h⟩
  · rintro ⟨w, hw, d, half, e, hd, hhalf, he, h⟩
    exact ⟨d, half, e, hd, hhalf, he, h.trans (infix_of_mem_words hw)⟩

/-- The middle of a range is a half of the day or nothing, a hyphen and a digit. -/
theorem isRangeMiddle_iff {rest : List Char} : isRangeMiddle rest = true ↔
    ∃ half ∈ writtenHalves, ∃ e, isDecimal e = true ∧ half ++ ['-', e] <+: rest := by
  constructor
  · intro h
    unfold isRangeMiddle at h
    split at h
    · rename_i e back
      exact ⟨[], by decide, e, h, back, rfl⟩
    · rename_i e back
      exact ⟨['a', 'm'], by decide, e, h, back, rfl⟩
    · rename_i e back
      exact ⟨['p', 'm'], by decide, e, h, back, rfl⟩
    · cases h
  · rintro ⟨half, hhalf, e, he, back, rfl⟩
    simp only [writtenHalves, List.mem_cons, List.not_mem_nil, or_false] at hhalf
    rcases hhalf with rfl | rfl | rfl <;> exact he

/-- The ranges that a line is searched for are the seams of times. -/
theorem holdsTimeRange_iff {cs : List Char} :
    holdsTimeRange cs = true ↔ HoldsSeam writtenHalves cs := by
  induction cs with
  | nil =>
    constructor
    · rintro ⟨⟩
    · rintro ⟨d, half, e, -, -, -, h⟩
      exact absurd (List.infix_nil.1 h) (List.cons_ne_nil _ _)
  | cons c cs ih =>
    rw [holdsTimeRange, Bool.or_eq_true, Bool.and_eq_true, isRangeMiddle_iff, ih]
    constructor
    · rintro (⟨hc, half, hhalf, e, he, h⟩ | ⟨d, half, e, hd, hhalf, he, h⟩)
      · exact ⟨c, half, e, hc, hhalf, he, (List.cons_prefix_cons.2 ⟨rfl, h⟩).isInfix⟩
      · exact ⟨d, half, e, hd, hhalf, he, List.infix_cons h⟩
    · rintro ⟨d, half, e, hd, hhalf, he, h⟩
      rcases List.infix_cons_iff.1 h with hfront | hbehind
      · obtain ⟨rfl, hmiddle⟩ := List.cons_prefix_cons.1 hfront
        exact Or.inl ⟨hd, half, hhalf, e, he, hmiddle⟩
      · exact Or.inr ⟨d, half, e, hd, hhalf, he, hbehind⟩

theorem holdsSeam_nil_iff {cs : List Char} : HoldsSeam [[]] cs ↔
    ∃ d e, isDecimal d = true ∧ isDecimal e = true ∧ [d, '-', e] <:+: cs := by
  simp [HoldsSeam]

/-- The ranges of numbers that a line is searched for are the seams without a half of the day. -/
theorem holdsNumberRange_iff {cs : List Char} :
    holdsNumberRange cs = true ↔ HoldsSeam [[]] cs := by
  rw [holdsSeam_nil_iff]
  fun_induction holdsNumberRange cs with
  | case1 c d rest ih =>
    rw [Bool.or_eq_true, Bool.and_eq_true, ih]
    constructor
    · rintro (⟨hc, hd⟩ | ⟨x, y, hx, hy, h⟩)
      · exact ⟨c, d, hc, hd, (List.prefix_append [c, '-', d] rest).isInfix⟩
      · exact ⟨x, y, hx, hy, List.infix_cons h⟩
    · rintro ⟨x, y, hx, hy, h⟩
      rcases List.infix_cons_iff.1 h with hfront | hbehind
      · obtain ⟨back, hback⟩ := hfront
        obtain ⟨rfl, -, rfl, -⟩ : x = c ∧ True ∧ y = d ∧ back = rest := by simpa using hback
        exact Or.inl ⟨hx, hy⟩
      · exact Or.inr ⟨x, y, hx, hy, hbehind⟩
  | case2 c rest hnot ih =>
    rw [ih]
    constructor
    · rintro ⟨x, y, hx, hy, h⟩
      exact ⟨x, y, hx, hy, List.infix_cons h⟩
    · rintro ⟨x, y, hx, hy, h⟩
      rcases List.infix_cons_iff.1 h with hfront | hbehind
      · -- A hyphen and a digit behind the first character were looked at before.
        obtain ⟨back, hback⟩ := hfront
        obtain ⟨rfl, rfl⟩ := List.cons.inj hback
        exact absurd rfl (hnot y back)
      · exact ⟨x, y, hx, hy, hbehind⟩
  | case3 =>
    constructor
    · rintro ⟨⟩
    · rintro ⟨x, y, -, -, h⟩
      exact absurd (List.infix_nil.1 h) (List.cons_ne_nil _ _)

/-! ## Ranges of the time grammar -/

/-- A digit begins the text and, with one of the `halves` behind it, ends it, and there is no hyphen
in it. -/
structure Edged (halves : List (List Char)) (cs : List Char) : Prop where
  front : ∃ d back, cs = d :: back ∧ isDecimal d = true
  back : ∃ front d half, cs = front ++ d :: half ∧ isDecimal d = true ∧ half ∈ halves
  clear : '-' ∉ cs

theorem edged_of_isDecimal {cs : List Char} (hne : cs ≠ []) (h : ∀ c ∈ cs, isDecimal c = true) :
    Edged [[]] cs where
  front := by
    obtain ⟨d, back, rfl⟩ := List.exists_cons_of_ne_nil hne
    exact ⟨d, back, rfl, h d List.mem_cons_self⟩
  back := ⟨cs.dropLast, cs.getLast hne, [], (List.dropLast_append_getLast hne).symm,
    h _ (List.getLast_mem hne), List.mem_singleton_self _⟩
  clear := fun hmem => absurd (h '-' hmem) (by decide)

/-- Hours and minutes with a colon between them are edged by digits. -/
theorem Edged.append_colon {x y : List Char} (hx : Edged [[]] x) (hy : Edged [[]] y) :
    Edged [[]] (x ++ ':' :: y) where
  front := by
    obtain ⟨d, back, rfl, hd⟩ := hx.front
    exact ⟨d, back ++ ':' :: y, rfl, hd⟩
  back := by
    obtain ⟨front, d, half, rfl, hd, hhalf⟩ := hy.back
    exact ⟨x ++ ':' :: front, d, half, by simp, hd, hhalf⟩
  clear := by
    intro hmem
    rcases List.mem_append.1 hmem with hmem | hmem
    · exact hx.clear hmem
    · exact hy.clear ((List.mem_cons.1 hmem).resolve_left (by decide))

theorem Edged.append_half {cs half : List Char} (h : Edged [[]] cs) (hhalf : half ∈ writtenHalves) :
    Edged writtenHalves (cs ++ half) where
  front := by
    obtain ⟨d, back, rfl, hd⟩ := h.front
    exact ⟨d, back ++ half, rfl, hd⟩
  back := by
    obtain ⟨front, d, none, rfl, hd, hnone⟩ := h.back
    obtain rfl := List.mem_singleton.1 hnone
    exact ⟨front, d, half, List.append_assoc _ _ _, hd, hhalf⟩
  clear := by
    have hfree : ∀ half ∈ writtenHalves, '-' ∉ half := by decide
    exact fun hmem => (List.mem_append.1 hmem).elim h.clear (hfree half hhalf)

theorem Text.IsNumeral.edged {cs : List Char} {n : Nat} (h : IsNumeral cs n) : Edged [[]] cs :=
  edged_of_isDecimal h.ne_nil h.isDecimal

theorem Faces.edged {cs : List Char} {h m : Nat} (hcs : Faces cs h m) : Edged [[]] cs := by
  cases hcs with
  | hour hcs => exact hcs.edged
  | hourAndMinute hcs _ hds => exact hcs.edged.append_colon hds.edged

/-- A time of day in one word begins with a digit, and ends with one but for the half of the day. -/
theorem NamesTime.edged {cs : List Char} {t : ClockTime} (h : NamesTime cs t)
    (hcs : ∀ c ∈ cs, isBlank c = false) : Edged writtenHalves cs := by
  have hnone : ∀ {blanks : List Char}, (∀ c ∈ blanks, isBlank c = true) → blanks ⊆ cs →
      blanks = [] := by
    intro blanks hb hsub
    refine List.eq_nil_iff_forall_not_mem.2 fun c hc => ?_
    have hblank := hcs c (hsub hc)
    rw [hb c hc] at hblank
    cases hblank
  cases h with
  | plain hface hb =>
    rw [hnone hb (List.subset_append_right _ _)]
    exact hface.edged.append_half (by decide)
  | @am cs blanks h t hface hb =>
    have hsub : blanks ⊆ cs ++ (blanks ++ ['a', 'm']) :=
      fun c hc => List.mem_append_right _ (List.mem_append_left _ hc)
    rw [hnone hb hsub]
    exact hface.edged.append_half (by decide)
  | @pm cs blanks h t hface hb =>
    have hsub : blanks ⊆ cs ++ (blanks ++ ['p', 'm']) :=
      fun c hc => List.mem_append_right _ (List.mem_append_left _ hc)
    rw [hnone hb hsub]
    exact hface.edged.append_half (by decide)

theorem NamesCompactTime.edged {group : List Char} {t : ClockTime} (h : NamesCompactTime group t) :
    Edged writtenHalves group := by
  have hne : group ≠ [] := by
    rintro rfl
    rcases h.length with h | h <;> cases h
  have hedged := edged_of_isDecimal hne fun c hc => isDecimal_of_isDigit (h.isDigit c hc)
  rw [← List.append_nil group]
  exact hedged.append_half (by decide)

/-- A range without blanks is two times with hyphens between them. -/
theorem Slot.Means.exists_edged {now : ClockTime} {cs : List Char} {slot : Slot}
    (h : Means now cs slot) (hfinish : slot.finish.isSome = true)
    (hcs : ∀ c ∈ cs, isBlank c = false) : ∃ x gap y, cs = x ++ (gap ++ y) ∧
      Edged writtenHalves x ∧ Edged writtenHalves y ∧ gap ≠ [] ∧ ∀ c ∈ gap, c = '-' := by
  cases h with
  | @compact x y t u hx hy =>
    exact ⟨x, ['-'], y, rfl, hx.edged, hy.edged, List.cons_ne_nil _ _,
      fun c hc => List.mem_singleton.1 hc⟩
  | @between x gap y t u hx hne hgap hy =>
    refine ⟨x, gap, y, rfl, hx.edged fun c hc => hcs c (List.mem_append_left _ hc),
      hy.edged fun c hc => hcs c (List.mem_append_right _ (List.mem_append_right _ hc)), hne,
      fun c hc => (hgap c hc).resolve_left ?_⟩
    rw [hcs c (List.mem_append_right _ (List.mem_append_left _ hc))]
    decide
  | _ => cases hfinish

/-- Where the parts around a gap hold no hyphen, the whole is cut at a hyphen inside of the gap. -/
theorem exists_of_cut_in_gap {x gap y a b : List Char} (hx : '-' ∉ x) (hy : '-' ∉ y)
    (hcut : x ++ (gap ++ y) = a ++ '-' :: b) :
    ∃ g g', gap = g ++ '-' :: g' ∧ a = x ++ g ∧ b = g' ++ y := by
  rcases List.append_eq_append_iff.1 hcut with ⟨s, rfl, hbehind⟩ | ⟨s, rfl, hbehind⟩
  · rcases List.append_eq_append_iff.1 hbehind with ⟨t, -, rfl⟩ | ⟨t, rfl, hb⟩
    · exact absurd (List.mem_append_right t List.mem_cons_self) hy
    · cases t with
      | nil =>
        obtain rfl : '-' :: b = y := hb
        exact absurd List.mem_cons_self hy
      | cons c t =>
        obtain ⟨rfl, rfl⟩ := List.cons.inj hb
        exact ⟨s, t, rfl, rfl, rfl⟩
  · cases s with
    | nil =>
      cases gap with
      | nil =>
        obtain rfl : '-' :: b = y := hbehind
        exact absurd List.mem_cons_self hy
      | cons c gap =>
        obtain ⟨rfl, rfl⟩ := List.cons.inj hbehind
        exact ⟨[], gap, rfl, by simp, rfl⟩
    | cons c s =>
      obtain ⟨rfl, -⟩ := List.cons.inj hbehind
      exact absurd (List.mem_append_right a List.mem_cons_self) hx

section Gap

variable {x gap y : List Char} (hx : Edged writtenHalves x) (hy : Edged writtenHalves y)
  (hgap : ∀ c ∈ gap, c = '-')

include hx hy hgap

/-- A digit stands on both sides of the hyphen of a seam, so there is no other hyphen beside it. -/
theorem eq_singleton_of_holdsSeam (h : HoldsSeam writtenHalves (x ++ (gap ++ y))) :
    gap = ['-'] := by
  obtain ⟨d, half, e, hd, hhalf, he, front, back, hseam⟩ := h
  have hcut : x ++ (gap ++ y) = (front ++ d :: half) ++ '-' :: e :: back := by
    rw [← hseam]
    simp
  obtain ⟨g, g', rfl, hfront, hback⟩ := exists_of_cut_in_gap hx.clear hy.clear hcut
  -- A hyphen in front of the seam's own would stand in the half of the day or be its digit.
  have hg : g = [] := by
    rcases List.eq_nil_or_concat g with rfl | ⟨g, c, rfl⟩
    · rfl
    have hlast : (d :: half).getLast? = some c := by
      have := congrArg List.getLast? hfront
      rwa [List.getLast?_append_of_ne_nil _ (List.cons_ne_nil _ _), List.concat_eq_append,
        ← List.append_assoc, List.getLast?_concat] at this
    have hc : c = '-' := hgap c (by simp)
    have hhyphen : '-' ∈ d :: half := List.mem_of_getLast? (hc ▸ hlast)
    have hfree : ∀ half ∈ writtenHalves, '-' ∉ half := by decide
    rcases List.mem_cons.1 hhyphen with rfl | hhyphen
    · exact absurd hd (by decide)
    · exact absurd hhyphen (hfree half hhalf)
  -- One behind it would be the digit that the seam ends with.
  have hg' : g' = [] := by
    cases g' with
    | nil => rfl
    | cons c g' =>
      have hc : c = '-' := hgap c (by simp)
      obtain ⟨rfl, -⟩ := List.cons.inj hback
      rw [hc] at he
      exact absurd he (by decide)
  rw [hg, hg', List.nil_append]

/-- A range shows its seam unless its hyphen is doubled. -/
theorem holdsSeam_iff_of_edged (hne : gap ≠ []) :
    HoldsSeam writtenHalves (x ++ (gap ++ y)) ↔ ¬ ['-', '-'] <:+: x ++ (gap ++ y) := by
  constructor
  · rintro hseam ⟨a, b, hdouble⟩
    have hcut : x ++ (gap ++ y) = a ++ '-' :: '-' :: b := by
      rw [← hdouble]
      simp
    obtain ⟨g, g', hg, -, hbehind⟩ := exists_of_cut_in_gap hx.clear hy.clear hcut
    rw [eq_singleton_of_holdsSeam hx hy hgap hseam] at hg
    obtain ⟨rfl, rfl⟩ : g = [] ∧ g' = [] := by
      cases g with
      | nil => exact ⟨rfl, (List.cons.inj hg).2.symm⟩
      | cons c g => simp at hg
    obtain rfl : '-' :: b = y := hbehind
    exact hy.clear List.mem_cons_self
  · intro hsingle
    obtain ⟨front, d, half, rfl, hd, hhalf⟩ := hx.back
    obtain ⟨e, back, rfl, he⟩ := hy.front
    obtain ⟨c, gap, rfl⟩ := List.exists_cons_of_ne_nil hne
    obtain rfl : c = '-' := hgap c List.mem_cons_self
    cases gap with
    | nil => exact ⟨d, half, e, hd, hhalf, he, front, back, by simp⟩
    | cons c gap =>
      obtain rfl : c = '-' := hgap c (List.mem_cons_of_mem _ List.mem_cons_self)
      exact absurd ⟨front ++ d :: half, gap ++ e :: back, by simp⟩ hsingle

end Gap

/-- Lower case neither makes nor removes a doubled hyphen. -/
theorem doubleHyphen_lower_iff {cs : List Char} :
    ['-', '-'] <:+: lower cs ↔ ['-', '-'] <:+: cs := by
  constructor
  · rintro ⟨a, b, h⟩
    have hcut : lower cs = a ++ '-' :: '-' :: b := by
      rw [← h]
      simp
    obtain ⟨x, y, rfl, -, hy⟩ := exists_of_lower_eq_append hcut
    obtain ⟨z, y, rfl, hz, -⟩ := exists_of_lower_eq_append (a := []) hy
    rw [lower_eq_nil_iff.1 hz]
    exact ⟨x, y, by simp⟩
  · rintro ⟨x, y, rfl⟩
    rw [lower_append, lower_append]
    exact ⟨lower x, lower y, rfl⟩

/-! ## Completions -/

theorem Partial.holdsSeam_lowered_iff {halves : List (List Char)}
    (hhalves : ∀ half ∈ halves, ∀ c ∈ half, isBlank c = false) {line : List Char} :
    HoldsSeam halves (ofLine line).lowered ↔ ∃ v ∈ Text.words line, HoldsSeam halves (lower v) := by
  rw [holdsSeam_iff_exists_word hhalves, show Text.words (ofLine line).lowered = _ from
    words_ofLine line]
  simp only [List.mem_map, exists_exists_and_eq_and]

theorem not_blank_of_mem_writtenHalves :
    ∀ half ∈ writtenHalves, ∀ c ∈ half, isBlank c = false := by
  have hall : writtenHalves.all (fun half => half.all (!isBlank ·)) = true := by decide
  exact fun half hhalf => not_blank_of_all (List.all_eq_true.1 hall half hhalf)

namespace Completion

/-- A range is offered where the line ends in an hour and none of its words shows a seam. -/
theorem rangeFromHour_ne_nil_iff {line : List Char} : rangeFromHour (Partial.ofLine line) ≠ [] ↔
    (∃ last hour, EndsInHour line last hour) ∧
      ∀ v ∈ words line, ¬ HoldsSeam writtenHalves (lower v) := by
  have hseam : holdsTimeRange (Partial.ofLine line).lowered = false ↔
      ∀ v ∈ words line, ¬ HoldsSeam writtenHalves (lower v) := by
    rw [Bool.eq_false_iff, ne_eq, holdsTimeRange_iff,
      Partial.holdsSeam_lowered_iff not_blank_of_mem_writtenHalves]
    simp only [not_exists, not_and]
  constructor
  · intro h
    obtain ⟨hrange, hends⟩ := endsInHour_of_rangeFromHour h
    exact ⟨hends, hseam.1 hrange⟩
  · rintro ⟨⟨last, hour, hends⟩, hfree⟩
    obtain ⟨before, hline, -⟩ := exists_swapsLast hends.getLast?
    rw [rangeFromHour_eq hends hline (hseam.2 hfree)]
    exact List.cons_ne_nil _ _

variable {now : ClockReading} {line : String} {w : List Char} {slot : Slot}

/-- Beside a range no range is offered, unless the range is written with a doubled hyphen: such a
range is passed over, and the hour at the end of the line completed as if it were not there. -/
theorem rangeFromHour_beside_range (hw : w ∈ words line.toList)
    (hread : Slot.read now w = .ok slot) (hfinish : slot.finish.isSome = true) :
    (¬ ['-', '-'] <:+: w → rangeFromHour (Partial.ofLine line.toList) = []) ∧
    (['-', '-'] <:+: w → (rangeFromHour (Partial.ofLine line.toList) ≠ [] ↔
      (∃ last hour, EndsInHour line.toList last hour) ∧
        ∀ v ∈ words line.toList, v ≠ w → ¬ HoldsSeam writtenHalves (lower v))) := by
  have hblank : ∀ c ∈ w, isBlank c = false := fun c hc => not_blank_of_mem_words hw hc
  have hslot : slot.isEmpty = false := by
    rw [Bool.eq_false_iff, ne_eq, Slot.isEmpty_iff]
    rintro rfl
    cases hfinish
  have hmeans := Slot.means_iff.2 (Slot.readChars_resolves_iff.1 ⟨hread, hslot⟩)
  rw [trim_eq_self_of_not_blank hblank] at hmeans
  obtain ⟨x, gap, y, hcut, hx, hy, hne, hgap⟩ :=
    hmeans.exists_edged hfinish (isBlank_of_mem_lower hblank)
  -- The search sees the range exactly if its gap is a single hyphen.
  have hseam : HoldsSeam writtenHalves (lower w) ↔ ¬ ['-', '-'] <:+: w := by
    rw [← doubleHyphen_lower_iff, hcut]
    exact holdsSeam_iff_of_edged hx hy hgap hne
  constructor
  · intro hsingle
    by_contra hoffer
    exact (rangeFromHour_ne_nil_iff.1 hoffer).2 w hw (hseam.2 hsingle)
  · intro hdouble
    rw [rangeFromHour_ne_nil_iff]
    refine and_congr_right fun _ => ⟨fun hfree v hv _ => hfree v hv, fun hfree v hv => ?_⟩
    by_cases hvw : v = w
    · rw [hvw, hseam]
      exact fun hsingle => hsingle hdouble
    · exact hfree v hv hvw

theorem rangeFromHour_beside_range_morning :
    words "deep 9:30AM-11 4".toList = ["deep".toList, "9:30AM-11".toList, "4".toList] ∧
    Slot.read ⟨8, 10, 0⟩ "9:30AM-11".toList =
      .ok (.between (.ofMinutes (9 * 60 + 30)) (.ofMinutes (11 * 60))) ∧
    rangeFromHour (Partial.ofLine "deep 9:30AM-11 4".toList) = [] := by
  have hline : words "deep 9:30AM-11 4".toList =
      ["deep".toList, "9:30AM-11".toList, "4".toList] := by decide +kernel
  have hw : "9:30AM-11".toList ∈ words "deep 9:30AM-11 4".toList := by
    rw [hline]
    exact List.mem_cons_of_mem _ List.mem_cons_self
  have hread : Slot.read ⟨8, 10, 0⟩ "9:30AM-11".toList =
      .ok (.between (.ofMinutes (9 * 60 + 30)) (.ofMinutes (11 * 60))) := by decide +kernel
  have hsingle : ¬ ['-', '-'] <:+: "9:30AM-11".toList := fun hdouble =>
    absurd (hdouble.sublist.count_le '-') (by decide +kernel)
  exact ⟨hline, hread, (rangeFromHour_beside_range hw hread rfl).1 hsingle⟩

/-- The range of two hours with a doubled hyphen is read, and a second range offered beside it. -/
theorem rangeFromHour_beside_doubled_hyphen :
    words "deep 9--11 4".toList = ["deep".toList, "9--11".toList, "4".toList] ∧
    Slot.read ⟨8, 10, 0⟩ "9--11".toList =
      .ok (.between (.ofMinutes (9 * 60)) (.ofMinutes (11 * 60))) ∧
    (rangeFromHour (Partial.ofLine "deep 9--11 4".toList)).map (·.text) =
      ["deep 9--11 4-5", "deep 9--11 4:30-5:30"] := by
  decide +kernel

end Completion

end Shorthand
