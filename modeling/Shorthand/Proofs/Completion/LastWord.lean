import Shorthand.Proofs.Completion.Block

/-!
Completions of the last word of a line: an hour becomes the hour from there on, and a task without
its minutes one of half an hour. `Completion.read_offers` says that what is offered for blocks,
hours and tasks is read by the grammar of blocks, of time expressions and of tasks.
-/

namespace Shorthand

open Text

/-! ## The last word -/

/-- The text is the line without outer blanks, with the word `new` in place of its last word. -/
def SwapsLast (line old new text : List Char) : Prop :=
  ∃ before ws, (trim line = before ++ old ∧ words line = ws ++ [old]) ∧
    text = before ++ new ∧ words text = ws ++ [new]

/-- The last word of a line can be taken out and another one put in its place. -/
theorem exists_swapsLast {line last : List Char} (h : (words line).getLast? = some last) :
    ∃ before, trim line = before ++ last ∧ ∀ new, new ≠ [] → (∀ c ∈ new, isBlank c = false) →
      SwapsLast line last new (before ++ new) := by
  obtain ⟨before, hline, hbefore, hwords⟩ := exists_of_getLast?_words h
  refine ⟨before, hline, fun new hne hnew => ⟨before, words before, ⟨hline, ?_⟩, rfl, ?_⟩⟩
  · rw [hwords, List.dropLast_append_getLast? last h]
  · rw [words_append_of_blank_last hbefore, words_eq_singleton hne hnew]

theorem Partial.getLast?_words_ofLine {line last : List Char}
    (h : (ofLine line).words.getLast? = some last) :
    ∃ word, (Text.words line).getLast? = some word ∧ lower word = last := by
  rw [words_ofLine, List.getLast?_map] at h
  exact Option.map_eq_some_iff.1 h

/-! ## Ranges -/

namespace Slot

def offeredMinutes : List (String × Fin 60) := [("", ⟨0, by decide⟩), (":30", ⟨30, by decide⟩)]

def hourRange (hour : Nat) (minute : String) : List Char :=
  digits hour ++ minute.toList ++ '-' :: (digits ((hour + 1) % 24) ++ minute.toList)

variable {minute : String} {m : Fin 60} (h : (minute, m) ∈ offeredMinutes)

include h

theorem lowerChar_hourRange (hour : Nat) :
    ∀ c ∈ hourRange hour minute, isBlank c = false ∧ lowerChar c = [c] := by
  have hminute : ∀ offer ∈ offeredMinutes,
      offer.1.toList.all (fun c => !isBlank c && lowerChar c = [c]) = true := by decide
  have htime : ∀ n, ∀ c ∈ digits n ++ minute.toList, isBlank c = false ∧ lowerChar c = [c] := by
    intro n c hc
    rcases List.mem_append.1 hc with hc | hc
    · have hdigit := isDigit_of_mem_digits hc
      exact ⟨isBlank_of_isDecimal (isDecimal_of_isDigit hdigit), lowerChar_of_isDigit hdigit⟩
    · simpa using List.all_eq_true.1 (hminute _ h) c hc
  intro c hc
  rcases List.mem_append.1 hc with hc | hc
  · exact htime _ c hc
  · rcases List.mem_cons.1 hc with rfl | hc
    · decide
    · exact htime _ c hc

end Slot

namespace Completion

theorem toList_hourFrom (before : List Char) (hour : Nat) (minute shown : String) (percent : Nat) :
    (hourFrom before hour minute shown percent).text.toList =
      before ++ Slot.hourRange hour minute := by
  simp [hourFrom, number, Slot.hourRange]

/-- A bare hour is a numeral of an hour of the day, in one or two digits. -/
theorem bareHour?_eq_some {word : List Char} {hour : Nat} (h : bareHour? word = some hour) :
    IsNumeral word hour ∧ hour < 24 ∧ word.length ≤ 2 := by
  unfold bareHour? at h
  split at h
  · rename_i hshort
    obtain ⟨hnumeral, hle⟩ := readNatUpTo?_eq_some_iff.1 h
    exact ⟨hnumeral, by omega, hshort⟩
  · cases h

structure EndsInHour (line last : List Char) (hour : Fin 24) : Prop where
  getLast? : (words line).getLast? = some last
  numeral : IsNumeral last hour
  short : last.length ≤ 2

variable {line : List Char}

theorem rangeFromHour_eq {before last : List Char} {hour : Fin 24} (h : EndsInHour line last hour)
    (hline : trim line = before ++ last)
    (hrange : holdsTimeRange (Partial.ofLine line).lowered = false) :
    rangeFromHour (Partial.ofLine line) =
      [hourFrom before hour "" ":00" 90, hourFrom before hour ":30" ":30" 85] := by
  -- The hour is looked for in lower case, and digits have no case.
  have hself : lower last = last := lower_eq_self fun c hc =>
    lowerChar_of_isDigit (h.numeral.isDigit c hc)
  have hlast : (Partial.ofLine line).words.getLast? = some last := by
    rw [Partial.words_ofLine, List.getLast?_map, h.getLast?, Option.map_some, hself]
  have hhour : bareHour? last = some hour.val := by
    rw [bareHour?, if_pos h.short, readNatUpTo?_eq_some_iff]
    exact ⟨h.numeral, Nat.le_of_lt_succ hour.isLt⟩
  have hbase : (Partial.ofLine line).base.take
      ((Partial.ofLine line).base.length - last.length) = before := by
    show (trim line).take ((trim line).length - last.length) = before
    rw [hline, List.length_append, Nat.add_sub_cancel, List.take_left]
  simp only [rangeFromHour, hrange, hlast, hhour, hbase, Bool.false_eq_true, if_false]

/-- A range is offered only behind an hour, in a line that holds no range of times. -/
theorem endsInHour_of_rangeFromHour (h : rangeFromHour (Partial.ofLine line) ≠ []) :
    holdsTimeRange (Partial.ofLine line).lowered = false ∧
      ∃ last hour, EndsInHour line last hour := by
  unfold rangeFromHour at h
  split at h
  · exact absurd rfl h
  rename_i hrange
  split at h
  · exact absurd rfl h
  rename_i last hlast
  split at h
  · exact absurd rfl h
  rename_i hour hhour
  obtain ⟨hnumeral, hlt, hshort⟩ := bareHour?_eq_some hhour
  obtain ⟨word, hword, rfl⟩ := Partial.getLast?_words_ofLine hlast
  have hself : lower word = word := eq_of_lower_isDecimal hnumeral.isDecimal
  rw [hself] at hnumeral hshort
  exact ⟨by simpa using hrange, word, ⟨hour, hlt⟩, hword, hnumeral, hshort⟩

/-- Where a range is offered the last word is an hour, and each text has the range of an hour in its
place. -/
theorem exists_of_rangeFromHour (h : rangeFromHour (Partial.ofLine line) ≠ []) :
    ∃ last before, ∃ hour : Fin 24, EndsInHour line last hour ∧
      rangeFromHour (Partial.ofLine line) =
        [hourFrom before hour "" ":00" 90, hourFrom before hour ":30" ":30" 85] ∧
      ∀ offer ∈ Slot.offeredMinutes, SwapsLast line last (Slot.hourRange hour offer.1)
        (before ++ Slot.hourRange hour offer.1) := by
  obtain ⟨hrange, last, hour, hends⟩ := endsInHour_of_rangeFromHour h
  obtain ⟨before, hline, hswap⟩ := exists_swapsLast hends.getLast?
  refine ⟨last, before, hour, hends, rangeFromHour_eq hends hline hrange, fun offer hoffer => ?_⟩
  exact hswap _ (by simp [Slot.hourRange])
    fun c hc => (Slot.lowerChar_hourRange hoffer hour c hc).1

end Completion

/-! ## Tasks -/

namespace Task

variable {order name minutes : List Char}

/-- A name with a character that is no blank and no hyphen is not empty. -/
theorem nameOf_ne_nil {c : Char} (hc : c ∈ name) (hblank : isBlank c = false) (hhyphen : c ≠ '-') :
    nameOf name ≠ [] := by
  intro hnil
  have hletter : c ∈ letters name := List.mem_filter.2 ⟨hc, by simp [hblank, hhyphen]⟩
  rw [← letters_nameOf, hnil] at hletter
  cases hletter

/-- A number, a name and the minutes are a task, which has the number as its place in the order
where that is one. -/
theorem read?_of_number (horder : isDigits order = true) (hname : ∀ c ∈ name, isBlank c = false)
    (hletter : ∃ c ∈ name, c ≠ '-') {n : Nat} (hminutes : IsNumeral minutes n) (hpos : 0 < n)
    (hle : n ≤ 4294967295) :
    ∃ t, read? (order ++ '-' :: name ++ '-' :: minutes) = some t ∧ t.minutes = n ∧ t.name ≠ "" ∧
      ∀ k, t.order = some k ↔ IsNumeral order k ∧ k ≤ 4294967295 := by
  obtain ⟨c, hc, hhyphen⟩ := hletter
  have hdecimal := (isDigits_iff.1 horder).2
  have hdigits : isDigits minutes = true := isDigits_iff.2 ⟨hminutes.ne_nil, hminutes.isDecimal⟩
  have hfront : ∀ d ∈ order ++ '-' :: name, isBlank d = false :=
    Spelling.no_blank_append (fun d hd => isBlank_of_isDecimal (hdecimal d hd)) hname
  have hboth : isName (order ++ '-' :: name) = true := isName_of_not_blank (by simp) hfront
  have hrest : isName name = true := isName_of_not_blank (List.ne_nil_of_mem hc) hname
  have htoken : ∀ d ∈ order ++ '-' :: name ++ '-' :: minutes, isBlank d = false :=
    Spelling.no_blank_append hfront fun d hd => isBlank_of_isDecimal (hminutes.isDecimal d hd)
  have hparts : ∀ {front : List Char}, c ∈ front → nameOf front ≠ [] ∧ ofParts? front minutes =
      some { name := String.ofList (nameOf front), minutes := n } := by
    intro front hfront
    have hne := nameOf_ne_nil hfront (hname c hc) hhyphen
    exact ⟨hne, ofParts?_eq_some_iff.2 ⟨n, hminutes, hpos, hle, hne, rfl⟩⟩
  rw [read?, trim_eq_self_of_not_blank htoken]
  by_cases hplace : ∃ k, IsNumeral order k ∧ k ≤ 4294967295
  · obtain ⟨k, hk, hkle⟩ := hplace
    have hordered : order? (order ++ '-' :: name) = some (k, name) :=
      order?_eq_some_iff.2 ⟨order, rfl, hk, hkle, hrest⟩
    obtain ⟨hne, hread⟩ := hparts hc
    rw [readTrimmed?_of_order hboth hdigits hordered, hread]
    refine ⟨_, rfl, rfl, mt String.ofList_eq_empty_iff.1 hne, fun l => ⟨?_, fun hl => ?_⟩⟩
    · rintro ⟨⟩
      exact ⟨hk, hkle⟩
    · rw [hl.1.unique hk]
  · have hunordered : order? (order ++ '-' :: name) = none := by
      rw [Option.eq_none_iff_forall_ne_some]
      rintro ⟨k, rest⟩ hordered
      obtain ⟨number, hcut, hk, hkle, -⟩ := order?_eq_some_iff.1 hordered
      -- Digits end at the first hyphen, so the number is the one in front.
      have hfree : ∀ {ds : List Char}, (∀ d ∈ ds, isDecimal d = true) → '-' ∉ ds :=
        fun hds hmem => absurd (hds '-' hmem) (by decide)
      have hfirst := cutAtFirst?_eq_some_iff.2 ⟨hcut, hfree hk.isDecimal⟩
      rw [cutAtFirst?_eq_some_iff.2 ⟨rfl, hfree hdecimal⟩] at hfirst
      obtain rfl : order = number := congrArg Prod.fst (Option.some.inj hfirst)
      exact hplace ⟨k, hk, hkle⟩
    obtain ⟨hne, hread⟩ := hparts (List.mem_append_right order (List.mem_cons_of_mem '-' hc))
    rw [readTrimmed?_of_no_order hboth hdigits hunordered, hread]
    refine ⟨_, rfl, rfl, mt String.ofList_eq_empty_iff.1 hne, fun l => ⟨fun hl => ?_, fun hl => ?_⟩⟩
    · cases hl
    · exact absurd ⟨l, hl⟩ hplace

end Task

/-- What notes a task without its minutes, in letters of either case: a number, a hyphen, and a name
that is more than hyphens. -/
theorem exists_of_isTaskStub {word : List Char} (h : isTaskStub (lower word) = true) :
    ∃ order name, word = order ++ '-' :: name ∧ Task.isDigits order = true ∧
      ∃ c ∈ name, c ≠ '-' := by
  unfold isTaskStub at h
  split at h
  · rename_i order name hcut
    obtain ⟨horder, hname⟩ := Bool.and_eq_true_iff.1 h
    obtain ⟨x, y, rfl, rfl, rfl⟩ := exists_of_lower_eq_append (cutAtFirst?_eq_some_iff.1 hcut).1
    rw [eq_of_lower_isDecimal (Task.isDigits_iff.1 horder).2] at horder
    refine ⟨x, y, rfl, horder, ?_⟩
    -- The first word of the name is not empty, and its first letter is no hyphen.
    obtain ⟨p, ps, hpieces⟩ := List.exists_cons_of_ne_nil (pieces_ne_nil (· == '-') (lower y))
    have hp := List.all_eq_true.1 hname p (hpieces ▸ List.mem_cons_self)
    cases p with
    | nil => cases hp
    | cons d p =>
      have hd : d ∈ lower y := List.mem_of_mem_head? (mem_head?_of_pieces hpieces rfl)
      have hmem : d :: p ∈ pieces (· == '-') (lower y) := hpieces ▸ List.mem_cons_self
      have hne := not_sep_of_mem_pieces hmem List.mem_cons_self
      obtain ⟨c, hc, hdc⟩ := List.mem_flatMap.1 hd
      refine ⟨c, hc, ?_⟩
      rintro rfl
      rw [List.mem_singleton.1 hdc] at hne
      cases hne
  · cases h

namespace Completion

variable {line : List Char}

/-- Where minutes are offered the last word is a number and a name, and the minutes stand behind the
line. -/
theorem exists_of_taskMinutes (h : taskMinutes (Partial.ofLine line) ≠ []) :
    ∃ order name, (words line).getLast? = some (order ++ '-' :: name) ∧
      Task.isDigits order = true ∧ (∃ c ∈ name, c ≠ '-') ∧
      taskMinutes (Partial.ofLine line) =
        [{ text := (Partial.ofLine line).followedBy "-30"
           description := "Set the task length in minutes", confidence := .ofPercent 85 }] := by
  unfold taskMinutes at h ⊢
  split at h
  · exact absurd rfl h
  rename_i hrange
  split at h
  · rename_i last hlast
    split at h
    · rename_i hstub
      obtain ⟨word, hword, rfl⟩ := Partial.getLast?_words_ofLine hlast
      obtain ⟨order, name, rfl, horder, hletter⟩ := exists_of_isTaskStub hstub
      refine ⟨order, name, hword, horder, hletter, ?_⟩
      rw [if_neg hrange, if_pos hstub]
    · exact absurd rfl h
  · exact absurd rfl h

/-- With the minutes behind it the last word is a task of half an hour. -/
theorem read_taskMinutes {c : Completion} (h : c ∈ taskMinutes (Partial.ofLine line)) :
    ∃ order name t, Task.isDigits order = true ∧
      SwapsLast line (order ++ '-' :: name) (order ++ '-' :: name ++ "-30".toList) c.text.toList ∧
      Task.read? (order ++ '-' :: name ++ "-30".toList) = some t ∧
      t.minutes = 30 ∧ t.name ≠ "" ∧
      ∀ n, t.order = some n ↔ IsNumeral order n ∧ n ≤ 4294967295 := by
  obtain ⟨order, name, hword, horder, hletter, hoffer⟩ :=
    exists_of_taskMinutes (List.ne_nil_of_mem h)
  rw [hoffer] at h
  obtain rfl := List.mem_singleton.1 h
  have hblank : ∀ c ∈ order ++ '-' :: name, isBlank c = false :=
    fun c hc => not_blank_of_mem_words (List.mem_of_getLast? hword) hc
  obtain ⟨t, hread, ht⟩ := Task.read?_of_number horder
    (fun c hc => hblank c (List.mem_append_right order (List.mem_cons_of_mem '-' hc))) hletter
    (Task.Spelling.isNumeral_digits 30) (by decide) (by decide)
  obtain ⟨before, hline, hswap⟩ := exists_swapsLast hword
  refine ⟨order, name, t, horder, ?_, hread, ht⟩
  have htext : ((Partial.ofLine line).followedBy "-30").toList =
      before ++ (order ++ '-' :: name ++ "-30".toList) := by
    rw [Partial.followedBy, String.toList_ofList, ← List.append_assoc, ← hline]
    rfl
  rw [htext]
  refine hswap _ (by simp) fun c hc => ?_
  rcases List.mem_append.1 hc with hc | hc
  · exact hblank c hc
  · exact not_blank_of_all rfl c hc

end Completion

end Shorthand
