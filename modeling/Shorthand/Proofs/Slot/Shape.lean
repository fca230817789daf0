import Shorthand.Proofs.Slot.Spelling

/-!
The spellings of the shapes. `Shape.Spells.unique` says that no text spells two shapes, so the order
in which the readers are tried does not matter, and `Shape.read?_eq_some_iff` that together they
recognise exactly the spellings.
-/

namespace Shorthand

open Text

theorem Amount.Spells.isDecimal_of_mem_head? {a : Amount} {cs : List Char} (ha : a.Spells cs)
    {c : Char} (hc : c ∈ cs.head?) : Text.isDecimal c = true := by
  rw [ha.eq, List.head?_append_of_ne_nil _ ha.ne_nil] at hc
  exact ha.isDecimal c (List.mem_of_mem_head? hc)

theorem Amount.Spells.dropWhile {a : Amount} {cs : List Char} (ha : a.Spells cs) :
    cs.dropWhile Text.isDecimal = [a.unit.letter] := by
  rw [ha.eq]
  apply dropWhile_run ha.isDecimal
  rintro c ⟨⟩
  exact a.unit.isDecimal_letter

namespace SpokenTime

theorem Spells.isDecimal_of_mem_head? {t : SpokenTime} {cs rest : List Char} (ht : t.Spells cs)
    {c : Char} (hc : c ∈ (cs ++ rest).head?) : isDecimal c = true := by
  obtain ⟨hface, blanks, -, rfl⟩ := ht
  rw [List.append_assoc] at hc
  exact hface.head?_face hc

/-- Behind the hour stands neither a digit nor the letter of a unit. -/
theorem Spells.exists_behind_hour {t : SpokenTime} {cs : List Char} (ht : t.Spells cs) :
    ∃ behind, cs = t.hour ++ behind ∧
      ∀ c ∈ behind.head?, isDecimal c = false ∧ c ≠ 'h' ∧ c ≠ 'm' := by
  obtain ⟨-, blanks, hb, rfl⟩ := ht
  obtain ⟨hour, minute, half⟩ := t
  cases minute with
  | some minute =>
    refine ⟨':' :: minute ++ (blanks ++ suffix ⟨hour, some minute, half⟩), by simp [face], ?_⟩
    rintro c ⟨⟩
    decide
  | none =>
    refine ⟨blanks ++ suffix ⟨hour, none, half⟩, by simp [face], ?_⟩
    cases blanks with
    | cons b blanks =>
      rintro c ⟨⟩
      have hblank : isBlank b = true := hb b List.mem_cons_self
      refine ⟨(stop_of_isGap (isGap_of_isBlank hblank)).1, ?_, ?_⟩
      · rintro rfl
        exact absurd hblank (by decide)
      · rintro rfl
        exact absurd hblank (by decide)
    | nil =>
      cases half with
      | none => rintro c ⟨⟩
      | some half => cases half <;> · rintro c ⟨⟩; decide

/-- The first run of digits is the hour, and no unit follows it, whatever stands behind the gap. -/
theorem Spells.first_run {t : SpokenTime} {cs rest : List Char} (ht : t.Spells cs)
    (hgap : ∀ c ∈ rest.head?, isGap c = true) :
    (cs ++ rest).takeWhile isDecimal = t.hour ∧
      ∀ c ∈ ((cs ++ rest).dropWhile isDecimal).head?, c ≠ 'h' ∧ c ≠ 'm' := by
  obtain ⟨behind, hcs, hbehind⟩ := ht.exists_behind_hour
  have hdec : ∀ c ∈ t.hour, isDecimal c = true := ht.1.isDecimal_hour
  have hstop : ∀ c ∈ (behind ++ rest).head?, isDecimal c = false ∧ c ≠ 'h' ∧ c ≠ 'm' := by
    cases behind with
    | cons b behind => exact hbehind
    | nil =>
      intro c hc
      have hc : isGap c = true := hgap c hc
      refine ⟨(stop_of_isGap hc).1, ?_, ?_⟩
      · rintro rfl
        exact absurd hc (by decide)
      · rintro rfl
        exact absurd hc (by decide)
  rw [hcs, List.append_assoc, takeWhile_run hdec fun c hc => (hstop c hc).1,
    dropWhile_run hdec fun c hc => (hstop c hc).1]
  exact ⟨rfl, fun c hc => (hstop c hc).2⟩

end SpokenTime

/-- What the reader of a time leaves in front of a gap and digits is the gap, with the blanks that
stand behind a time without a half of the day. -/
theorem SpokenTime.Spells.read_gap {t : SpokenTime} {cs gap rest : List Char} (ht : t.Spells cs)
    (hne : gap ≠ []) (hgap : ∀ c ∈ gap, isGap c = true)
    (hrest : ∀ c ∈ rest.head?, isDecimal c = true) :
    ∃ blanks, (∀ c ∈ blanks, isBlank c = true) ∧ (t.half.isSome = true → blanks = []) ∧
      SpokenTime.read? (cs ++ (gap ++ rest)) = some (t, blanks ++ (gap ++ rest)) := by
  apply ht.read?
  · rw [List.head?_append_of_ne_nil _ hne]
    exact fun c hc => hgap c (List.mem_of_mem_head? hc)
  · intro c hc
    -- The first character that is not blank is a hyphen of the gap or the digit behind it.
    have hblank : isBlank c = false := not_of_mem_head?_dropWhile hc
    rcases mem_head?_trimStart_append (fun d hd => isBlank_of_isDecimal (hrest d hd)) hc with
      hmem | hhead
    · have hhyphen : c = '-' := by
        have := hgap c hmem
        simpa [isGap, hblank] using this
      subst hhyphen
      decide
    · have hdec := hrest c hhead
      constructor
      · rintro rfl
        exact absurd hdec (by decide)
      · rintro rfl
        exact absurd hdec (by decide)

/-- A time is no amount: no unit follows its first digits. -/
theorem Amount.read?_eq_none_of_spells {t : SpokenTime} {cs : List Char} (ht : t.Spells cs) :
    Amount.read? cs = none := by
  cases h : Amount.read? cs with
  | none => rfl
  | some a =>
    have hdrop := (Amount.read?_eq_some_iff.1 h).dropWhile
    have hend : ∀ c ∈ ([] : List Char).head?, isGap c = true := nofun
    have hunit := (ht.first_run hend).2
    rw [List.append_nil, hdrop] at hunit
    have := hunit a.unit.letter rfl
    cases hu : a.unit with
    | hours => exact absurd (by rw [hu]; rfl) this.1
    | minutes => exact absurd (by rw [hu]; rfl) this.2

namespace Shape

inductive Spells : Shape → List Char → Prop
  | now : Spells .now ['n', 'o', 'w']
  | fromNow {a : Amount} {cs : List Char} (ha : a.Spells cs) :
      Spells (.fromNow a) ('n' :: 'o' :: 'w' :: '+' :: cs)
  | amount {a : Amount} {cs : List Char} (ha : a.Spells cs) : Spells (.amount a) cs
  | compact {start finish : List Char} (hs : isCompactGroup start = true)
      (hf : isCompactGroup finish = true) : Spells (.compact start finish) (start ++ '-' :: finish)
  | between {t u : SpokenTime} {x gap y : List Char} (ht : t.Spells x) (hne : gap ≠ [])
      (hgap : ∀ c ∈ gap, isGap c = true) (hu : u.Spells y) :
      Spells (.between t u) (x ++ (gap ++ y))
  | startAndAmount {t : SpokenTime} {a : Amount} {x y : List Char} (ht : t.Spells x)
      (ha : a.Spells y) : Spells (.startAndAmount t a) (x ++ '-' :: y)

theorem isCompactGroup_iff {cs : List Char} :
    isCompactGroup cs = true ↔
      (cs.length = 3 ∨ cs.length = 4) ∧ ∀ c ∈ cs, isDecimal c = true := by
  simp [isCompactGroup]

section Sound

variable {cs : List Char} {shape : Shape}

theorem spells_of_readNow? (h : readNow? cs = some shape) : shape.Spells cs := by
  unfold readNow? at h
  split at h
  · rename_i hcs
    cases h
    exact hcs ▸ .now
  · cases h

theorem spells_of_readFromNow? (h : readFromNow? cs = some shape) : shape.Spells cs := by
  obtain ⟨rest, hrest, hshape⟩ := Option.bind_eq_some_iff.1 h
  obtain ⟨a, ha, ⟨⟩⟩ := Option.bind_eq_some_iff.1 hshape
  unfold after? at hrest
  split at hrest
  · rename_i hprefix
    cases hrest
    obtain ⟨tail, rfl⟩ := List.isPrefixOf_iff_prefix.1 hprefix
    exact .fromNow (Amount.read?_eq_some_iff.1 ha)
  · cases hrest

theorem spells_of_readAmount? (h : readAmount? cs = some shape) : shape.Spells cs := by
  obtain ⟨a, ha, ⟨⟩⟩ := Option.bind_eq_some_iff.1 h
  exact .amount (Amount.read?_eq_some_iff.1 ha)

theorem spells_of_readCompact? (h : readCompact? cs = some shape) : shape.Spells cs := by
  unfold readCompact? at h
  dsimp only at h
  split at h
  · rename_i finish hfinish
    split at h
    · rename_i hgroups
      cases h
      have hcs : cs = cs.takeWhile isDecimal ++ '-' :: finish := by
        rw [← hfinish, List.takeWhile_append_dropWhile]
      obtain ⟨hs, hf⟩ := Bool.and_eq_true_iff.1 hgroups
      have hspells := Spells.compact hs hf
      rwa [← hcs] at hspells
    · cases h
  · cases h

theorem spells_of_readBetween? (h : readBetween? cs = some shape) : shape.Spells cs := by
  obtain ⟨⟨t, rest⟩, hread, hshape⟩ := Option.bind_eq_some_iff.1 h
  obtain ⟨x, hx, rfl⟩ := SpokenTime.spells_of_read? hread
  dsimp only at hshape
  split at hshape
  · cases hshape
  · rename_i hne
    obtain ⟨u, hu, ⟨⟩⟩ := Option.bind_eq_some_iff.1 hshape
    have hspells := Spells.between hx hne (fun _ hc => List.mem_takeWhile_imp hc)
      (SpokenTime.readLast?_eq_some_iff.1 hu)
    rwa [List.takeWhile_append_dropWhile] at hspells

theorem spells_of_readStartAndAmount? (h : readStartAndAmount? cs = some shape) :
    shape.Spells cs := by
  obtain ⟨⟨t, rest⟩, hread, hshape⟩ := Option.bind_eq_some_iff.1 h
  obtain ⟨x, hx, rfl⟩ := SpokenTime.spells_of_read? hread
  dsimp only at hshape
  by_cases hhalf : t.half.isSome = true
  · rw [if_pos hhalf] at hshape
    split at hshape
    · obtain ⟨a, ha, ⟨⟩⟩ := Option.bind_eq_some_iff.1 hshape
      exact .startAndAmount hx (Amount.read?_eq_some_iff.1 ha)
    · cases hshape
  · rw [if_neg hhalf] at hshape
    split at hshape
    · rename_i y hy
      obtain ⟨a, ha, ⟨⟩⟩ := Option.bind_eq_some_iff.1 hshape
      obtain ⟨blanks, hb, hrest⟩ := exists_blanks_append_trimStart rest
      rw [hrest, hy, ← List.append_assoc]
      exact .startAndAmount (hx.append_blanks hhalf hb) (Amount.read?_eq_some_iff.1 ha)
    · cases hshape

/-- What a reader makes of a text is spelled by it. -/
theorem spells_of_mem_readers {reader : List Char → Option Shape} (hmem : reader ∈ readers)
    (h : reader cs = some shape) : shape.Spells cs := by
  simp only [readers, List.mem_cons, List.not_mem_nil, or_false] at hmem
  rcases hmem with rfl | rfl | rfl | rfl | rfl | rfl
  · exact spells_of_readNow? h
  · exact spells_of_readFromNow? h
  · exact spells_of_readAmount? h
  · exact spells_of_readCompact? h
  · exact spells_of_readBetween? h
  · exact spells_of_readStartAndAmount? h

end Sound

/-- The reader of the only shape that a text can have. The first character tells the words from the
numbers, the first run of digits and the character behind it tell most numbers apart, and what
stands behind the first gap does the rest. -/
def readerOf (cs : List Char) : List Char → Option Shape :=
  let next := (cs.dropWhile isDecimal).head?
  if cs.head? = some 'n' then
    if cs.length = 3 then readNow? else readFromNow?
  else if next = some 'h' ∨ next = some 'm' then readAmount?
  else if 3 ≤ (cs.takeWhile isDecimal).length then readCompact?
  else match SpokenTime.read? cs with
    | some (_, rest) =>
      if (Amount.read? (rest.dropWhile isGap)).isSome then readStartAndAmount? else readBetween?
    | none => readBetween?

theorem readerOf_mem_readers (cs : List Char) : readerOf cs ∈ readers := by
  unfold readerOf
  dsimp only
  split
  · split <;> simp [readers]
  · split
    · simp [readers]
    · split
      · simp [readers]
      · split
        · split <;> simp [readers]
        · simp [readers]

theorem head?_ne_n {cs : List Char} (h : ∀ c ∈ cs.head?, isDecimal c = true) :
    cs.head? ≠ some 'n' := by
  intro hn
  exact absurd (h 'n' hn) (by decide)

theorem readerOf_of_spells_amount {a : Amount} {cs : List Char} (ha : a.Spells cs) :
    readerOf cs = readAmount? := by
  have hnext : (cs.dropWhile isDecimal).head? = some a.unit.letter := by
    rw [ha.dropWhile]
    rfl
  unfold readerOf
  dsimp only
  rw [if_neg (head?_ne_n fun _ => ha.isDecimal_of_mem_head?), hnext, if_pos]
  cases a.unit
  · exact Or.inl rfl
  · exact Or.inr rfl

theorem readerOf_compact {start finish : List Char} (hs : isCompactGroup start = true) :
    readerOf (start ++ '-' :: finish) = readCompact? := by
  obtain ⟨hlen, hdec⟩ := isCompactGroup_iff.1 hs
  have hne : start ≠ [] := by
    rw [← List.length_pos_iff]
    omega
  have hstop : ∀ c ∈ ('-' :: finish).head?, isDecimal c = false := by
    rintro c ⟨⟩
    decide
  have hhead : ∀ c ∈ (start ++ '-' :: finish).head?, isDecimal c = true := by
    rw [List.head?_append_of_ne_nil _ hne]
    exact fun c hc => hdec c (List.mem_of_mem_head? hc)
  unfold readerOf
  dsimp only
  rw [if_neg (head?_ne_n hhead), takeWhile_run hdec hstop, dropWhile_run hdec hstop,
    if_neg (by simp), if_pos (by omega)]

/-- Behind a time and a gap it is the text that follows which decides. -/
theorem readerOf_of_spells_time {t : SpokenTime} {cs gap rest blanks : List Char}
    (ht : t.Spells cs) (hne : gap ≠ []) (hgap : ∀ c ∈ gap, isGap c = true)
    (hrest : ∀ c ∈ rest.head?, isDecimal c = true) (hb : ∀ c ∈ blanks, isBlank c = true)
    (hread : SpokenTime.read? (cs ++ (gap ++ rest)) = some (t, blanks ++ (gap ++ rest))) :
    readerOf (cs ++ (gap ++ rest)) =
      if (Amount.read? rest).isSome then readStartAndAmount? else readBetween? := by
  have hstart : ∀ c ∈ (gap ++ rest).head?, isGap c = true := by
    rw [List.head?_append_of_ne_nil _ hne]
    exact fun c hc => hgap c (List.mem_of_mem_head? hc)
  obtain ⟨hrun, hnext⟩ := ht.first_run hstart
  have hlen : t.hour.length ≤ 2 := by
    have := ht.1.length_hour
    omega
  -- Whatever blanks the time leaves, the gap behind it ends at the same place.
  have hdrop : (blanks ++ (gap ++ rest)).dropWhile isGap = rest := by
    rw [← List.append_assoc]
    apply dropWhile_run
    · intro c hc
      rcases List.mem_append.1 hc with hc | hc
      · exact isGap_of_isBlank (hb c hc)
      · exact hgap c hc
    · exact fun c hc => isGap_of_isDecimal (hrest c hc)
  unfold readerOf
  dsimp only
  rw [if_neg (head?_ne_n fun _ => ht.isDecimal_of_mem_head?), if_neg, hrun, if_neg (by omega),
    hread]
  · show (if (Amount.read? ((blanks ++ (gap ++ rest)).dropWhile isGap)).isSome then _ else _) = _
    rw [hdrop]
  · rintro (h | h)
    · exact (hnext 'h' h).1 rfl
    · exact (hnext 'm' h).2 rfl

/-- A shape is read by the reader that its spelling asks for. -/
theorem Spells.readerOf {s : Shape} {cs : List Char} (h : s.Spells cs) :
    Shape.readerOf cs cs = some s := by
  -- One case a form: the choice of the reader first, then what this reader makes of the text.
  cases h with
  | now => rfl
  | @fromNow a cs ha =>
    have hreader : Shape.readerOf ('n' :: 'o' :: 'w' :: '+' :: cs) = readFromNow? := by
      unfold Shape.readerOf
      dsimp only
      rw [List.head?_cons, if_pos rfl, if_neg]
      simp only [List.length_cons]
      omega
    rw [hreader]
    show (Amount.read? cs).bind _ = _
    rw [Amount.read?_eq_some_iff.2 ha]
    rfl
  | amount ha =>
    rw [readerOf_of_spells_amount ha]
    show (Amount.read? cs).bind _ = _
    rw [Amount.read?_eq_some_iff.2 ha]
    rfl
  | @compact start finish hs hf =>
    have hstop : ∀ c ∈ ('-' :: finish).head?, isDecimal c = false := by
      rintro c ⟨⟩
      decide
    have hdec := (isCompactGroup_iff.1 hs).2
    rw [readerOf_compact hs, readCompact?, takeWhile_run hdec hstop, dropWhile_run hdec hstop]
    show (if isCompactGroup start && isCompactGroup finish then _ else none) = _
    rw [hs, hf]
    rfl
  | @between t u x gap y ht hne hgap hu =>
    have hy : ∀ c ∈ y.head?, isDecimal c = true := by
      intro c hc
      rw [← List.append_nil y] at hc
      exact hu.isDecimal_of_mem_head? hc
    -- The first time may keep or leave the blanks behind it, so both are carried along as `blanks`.
    obtain ⟨blanks, hb, hhalf, hread⟩ := ht.read_gap hne hgap hy
    rw [readerOf_of_spells_time ht hne hgap hy hb hread, Amount.read?_eq_none_of_spells hu]
    show readBetween? _ = _
    have hrun : ∀ c ∈ blanks ++ gap, isGap c = true := by
      intro c hc
      rcases List.mem_append.1 hc with hc | hc
      · exact isGap_of_isBlank (hb c hc)
      · exact hgap c hc
    have hstop : ∀ c ∈ y.head?, isGap c = false := fun c hc => isGap_of_isDecimal (hy c hc)
    rw [readBetween?, hread]
    show (if (blanks ++ (gap ++ y)).takeWhile isGap = [] then none
      else (SpokenTime.readLast? ((blanks ++ (gap ++ y)).dropWhile isGap)).bind _) = _
    rw [← List.append_assoc, takeWhile_run hrun hstop, dropWhile_run hrun hstop,
      if_neg (by simp [hne]), SpokenTime.readLast?_eq_some_iff.2 hu]
    rfl
  | @startAndAmount t a x y ht ha =>
    have hy : ∀ c ∈ y.head?, isDecimal c = true := fun _ => ha.isDecimal_of_mem_head?
    have hne : ['-'] ≠ [] := by simp
    have hgap : ∀ c ∈ ['-'], isGap c = true := by
      intro c hc
      obtain rfl : c = '-' := List.mem_singleton.1 hc
      rfl
    obtain ⟨blanks, hb, hhalf, hread⟩ := ht.read_gap hne hgap hy
    have hsome := Amount.read?_eq_some_iff.2 ha
    show Shape.readerOf (x ++ (['-'] ++ y)) (x ++ (['-'] ++ y)) = _
    rw [readerOf_of_spells_time ht hne hgap hy hb hread, hsome]
    show readStartAndAmount? _ = _
    have hbehind : (if t.half.isSome = true then blanks ++ (['-'] ++ y)
        else trimStart (blanks ++ (['-'] ++ y))) = '-' :: y := by
      split
      · rename_i h
        rw [hhalf h]
        rfl
      · apply trimStart_blanks hb
        rintro c ⟨⟩
        decide
    simp only [readStartAndAmount?, hread, Option.bind_eq_bind, Option.bind_some, hbehind, hsome]

/-- A text spells one shape at most. -/
theorem Spells.unique {s s' : Shape} {cs : List Char} (h : s.Spells cs) (h' : s'.Spells cs) :
    s = s' := by
  have heq := h.readerOf.symm.trans h'.readerOf
  exact Option.some.inj heq

/-- A text is read as the shape that it spells. -/
theorem read?_eq_some_iff {cs : List Char} {s : Shape} : read? cs = some s ↔ s.Spells cs := by
  constructor
  · intro h
    obtain ⟨reader, hmem, hread⟩ := List.exists_of_findSome?_eq_some h
    exact spells_of_mem_readers hmem hread
  · intro h
    have hsome : (read? cs).isSome = true :=
      List.findSome?_isSome_iff.2 ⟨readerOf cs, readerOf_mem_readers cs, by rw [h.readerOf]; rfl⟩
    obtain ⟨s', hs'⟩ := Option.isSome_iff_exists.1 hsome
    obtain ⟨reader, hmem, hread⟩ := List.exists_of_findSome?_eq_some hs'
    rw [hs', h.unique (spells_of_mem_readers hmem hread)]

end Shape

end Shorthand
