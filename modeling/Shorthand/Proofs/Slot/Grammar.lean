import Shorthand.Proofs.Chain
import Shorthand.Proofs.Slot.Group
import Shorthand.Proofs.Text.Words

/-!
The grammar of time expressions, with the slot that each sentence means. The main statement is
`Slot.read_resolves_iff_means`: a text describes a slot exactly when it is a sentence, and it is the
slot that the sentence means.
-/

namespace Shorthand

open Text

/-- An amount of time: a number and the letter of its unit. In minutes it fits a signed 32-bit word.
-/
inductive Lasts : List Char → Nat → Prop
  | minutes {cs : List Char} {n : Nat} (hcs : IsNumeral cs n) (hn : n ≤ 2147483647) :
      Lasts (cs ++ ['m']) n
  | hours {cs : List Char} {n : Nat} (hcs : IsNumeral cs n) (hn : n * 60 ≤ 2147483647) :
      Lasts (cs ++ ['h']) (n * 60)

/-- The hour in one or two digits, and behind a colon the minute in two, which is zero when it is
not written. -/
inductive Faces : List Char → Nat → Nat → Prop
  | hour {cs : List Char} {h : Nat} (hcs : IsNumeral cs h) (hlen : cs.length ≤ 2) : Faces cs h 0
  | hourAndMinute {cs ds : List Char} {h m : Nat} (hcs : IsNumeral cs h) (hlen : cs.length ≤ 2)
      (hds : IsNumeral ds m) (hlen' : ds.length = 2) : Faces (cs ++ ':' :: ds) h m

/-- A time of day: its digits, and its half of the day if it is named, with blanks between the two.
Twelve `am` is midnight, twelve `pm` is noon, and `pm` adds twelve to the hours before twelve. -/
inductive NamesTime : List Char → ClockTime → Prop
  | plain {cs blanks : List Char} {t : ClockTime} (hcs : Faces cs t.hour t.minute)
      (hb : ∀ c ∈ blanks, isBlank c = true) : NamesTime (cs ++ blanks) t
  | am {cs blanks : List Char} {h : Nat} {t : ClockTime} (hcs : Faces cs h t.minute)
      (hb : ∀ c ∈ blanks, isBlank c = true) (ht : (t.hour : Nat) = if h = 12 then 0 else h) :
      NamesTime (cs ++ (blanks ++ ['a', 'm'])) t
  | pm {cs blanks : List Char} {h : Nat} {t : ClockTime} (hcs : Faces cs h t.minute)
      (hb : ∀ c ∈ blanks, isBlank c = true) (ht : (t.hour : Nat) = if h < 12 then h + 12 else h) :
      NamesTime (cs ++ (blanks ++ ['p', 'm'])) t

/-- The slot that a sentence of the grammar means to somebody whose clock shows `now`. -/
inductive Slot.Means (now : ClockTime) : List Char → Slot → Prop
  | now : Means now ['n', 'o', 'w'] { start := some now }
  | fromNow {cs : List Char} {n : Nat} (hcs : Lasts cs n) :
      Means now ('n' :: 'o' :: 'w' :: '+' :: cs) { start := some now, length := some n }
  | amount {cs : List Char} {n : Nat} (hcs : Lasts cs n) :
      Means now cs { start := some now, length := some n }
  | compact {x y : List Char} {t u : ClockTime} (hx : NamesCompactTime x t)
      (hy : NamesCompactTime y u) : Means now (x ++ '-' :: y)
        { start := some t, finish := some u, length := some ((u.minutes : Int) - t.minutes) }
  | between {x gap y : List Char} {t u : ClockTime} (hx : NamesTime x t) (hne : gap ≠ [])
      (hgap : ∀ c ∈ gap, isBlank c = true ∨ c = '-') (hy : NamesTime y u) :
      Means now (x ++ (gap ++ y))
        { start := some t, finish := some u, length := some ((u.minutes : Int) - t.minutes) }
  | startAndAmount {x y : List Char} {t : ClockTime} {n : Nat} (hx : NamesTime x t)
      (hy : Lasts y n) : Means now (x ++ '-' :: y) { start := some t, length := some n }

/-! ## Amounts -/

/-- An amount has its minutes unless they are past a signed 32-bit word, before or after hours are
turned into minutes. -/
theorem Amount.minutes?_eq_some_iff {a : Amount} {n : Nat} :
    a.minutes? = some n ↔ ∃ k, IsNumeral a.digits k ∧ k ≤ 2147483647 ∧
      match a.unit with
      | .minutes => n = k
      | .hours => n = k * 60 ∧ k * 60 ≤ 2147483647 := by
  unfold Amount.minutes?
  simp only [Option.bind_eq_bind, Option.bind_eq_some_iff, readNatUpTo?_eq_some_iff, and_assoc]
  refine exists_congr fun k => and_congr_right fun _ => and_congr_right fun _ => ?_
  cases a.unit with
  | minutes => exact ⟨fun h => (Option.some.inj h).symm, fun h => congrArg some h.symm⟩
  | hours =>
    show (if k * 60 ≤ 2147483647 then some (k * 60) else none) = some n ↔ _
    constructor
    · intro h
      split at h
      · rename_i hle
        exact ⟨(Option.some.inj h).symm, hle⟩
      · cases h
    · rintro ⟨rfl, hle⟩
      rw [if_pos hle]

/-- An amount of the grammar is one that is spelled and has its minutes. -/
theorem lasts_iff {cs : List Char} {n : Nat} :
    Lasts cs n ↔ ∃ a : Amount, a.Spells cs ∧ a.minutes? = some n := by
  constructor
  · rintro (⟨hcs, hn⟩ | ⟨hcs, hn⟩)
    · rename_i cs
      exact ⟨⟨cs, .minutes⟩, ⟨hcs.ne_nil, hcs.isDecimal, rfl⟩,
        Amount.minutes?_eq_some_iff.2 ⟨n, hcs, hn, rfl⟩⟩
    · rename_i cs k
      exact ⟨⟨cs, .hours⟩, ⟨hcs.ne_nil, hcs.isDecimal, rfl⟩,
        Amount.minutes?_eq_some_iff.2 ⟨k, hcs, by omega, rfl, hn⟩⟩
  · rintro ⟨⟨digits, unit⟩, ha, hn⟩
    obtain ⟨k, hk, hle, hunit⟩ := Amount.minutes?_eq_some_iff.1 hn
    rw [ha.eq]
    cases unit with
    | minutes =>
      obtain rfl : n = k := hunit
      exact .minutes hk hle
    | hours =>
      obtain ⟨rfl, hle⟩ := hunit
      exact .hours hk hle

/-! ## Times -/

def SpokenTime.minute? (t : SpokenTime) : Option Nat :=
  match t.minute with
  | none => some 0
  | some digits => readNat? digits

theorem SpokenTime.time?_eq_some_iff {s : SpokenTime} {t : ClockTime} :
    s.time? = some t ↔
      ∃ h, readNat? s.hour = some h ∧ s.minute? = some t.minute.val ∧
        hourOfDay h s.half = t.hour := by
  have hbind : s.time? = (readNat? s.hour).bind fun h => s.minute?.bind fun m =>
      ClockTime.at? (hourOfDay h s.half) m := by
    unfold SpokenTime.time? SpokenTime.minute?
    cases s.minute <;> rfl
  simp only [hbind, Option.bind_eq_some_iff, ClockTime.at?_eq_some_iff]
  constructor
  · rintro ⟨h, hh, m, hm, hhour, rfl⟩
    exact ⟨h, hh, hm, hhour⟩
  · rintro ⟨h, hh, hm, hhour⟩
    exact ⟨h, hh, _, hm, hhour, rfl⟩

theorem SpokenTime.HasFace.faces {s : SpokenTime} (hs : s.HasFace) {h m : Nat}
    (hh : readNat? s.hour = some h) (hm : s.minute? = some m) : Faces s.face h m := by
  have hlen : s.hour.length ≤ 2 := by
    have := hs.length_hour
    omega
  have hhour : IsNumeral s.hour h := readNat?_eq_some_iff.1 hh
  obtain ⟨hour, minute, half⟩ := s
  cases minute with
  | none =>
    obtain rfl : 0 = m := Option.some.inj hm
    show Faces (hour ++ []) h 0
    rw [List.append_nil]
    exact .hour hhour hlen
  | some ds => exact .hourAndMinute hhour hlen (readNat?_eq_some_iff.1 hm) (hs.length_minute ds rfl)

theorem Faces.exists_hasFace {cs : List Char} {h m : Nat} (hcs : Faces cs h m)
    (half : Option Half) :
    ∃ s : SpokenTime, s.HasFace ∧ s.half = half ∧ s.face = cs ∧
      readNat? s.hour = some h ∧ s.minute? = some m := by
  have hlength : ∀ {ds : List Char} {k : Nat}, IsNumeral ds k → ds.length ≤ 2 →
      ds.length = 1 ∨ ds.length = 2 := by
    intro ds k hds hlen
    have := List.length_pos_iff.2 hds.ne_nil
    omega
  cases hcs with
  | hour hcs hlen =>
    refine ⟨⟨cs, none, half⟩, ⟨hlength hcs hlen, hcs.isDecimal, ?_, ?_⟩, rfl, ?_,
      readNat?_eq_some_iff.2 hcs, rfl⟩
    · rintro ds ⟨⟩
    · rintro ds ⟨⟩
    · show cs ++ [] = cs
      rw [List.append_nil]
  | @hourAndMinute cs ds h m hcs hlen hds hlen' =>
    refine ⟨⟨cs, some ds, half⟩, ⟨hlength hcs hlen, hcs.isDecimal, ?_, ?_⟩, rfl, rfl,
      readNat?_eq_some_iff.2 hcs, readNat?_eq_some_iff.2 hds⟩
    · rintro _ ⟨⟩
      exact hlen'
    · rintro _ ⟨⟩
      exact hds.isDecimal

/-- A time of the grammar is one that is spelled and is a time of day. -/
theorem namesTime_iff {cs : List Char} {t : ClockTime} :
    NamesTime cs t ↔ ∃ s : SpokenTime, s.Spells cs ∧ s.time? = some t := by
  constructor
  · intro h
    cases h with
    | @plain cs blanks _ hcs hb =>
      obtain ⟨s, hs, hhalf, rfl, hh, hm⟩ := hcs.exists_hasFace none
      refine ⟨s, ⟨hs, blanks, hb, by simp [SpokenTime.suffix, hhalf]⟩, ?_⟩
      rw [SpokenTime.time?_eq_some_iff, hhalf]
      exact ⟨_, hh, hm, rfl⟩
    | @am cs blanks h _ hcs hb ht =>
      obtain ⟨s, hs, hhalf, rfl, hh, hm⟩ := hcs.exists_hasFace (some .am)
      refine ⟨s, ⟨hs, blanks, hb, by rw [SpokenTime.suffix, hhalf]; rfl⟩, ?_⟩
      rw [SpokenTime.time?_eq_some_iff, hhalf]
      exact ⟨h, hh, hm, ht.symm⟩
    | @pm cs blanks h _ hcs hb ht =>
      obtain ⟨s, hs, hhalf, rfl, hh, hm⟩ := hcs.exists_hasFace (some .pm)
      refine ⟨s, ⟨hs, blanks, hb, by rw [SpokenTime.suffix, hhalf]; rfl⟩, ?_⟩
      rw [SpokenTime.time?_eq_some_iff, hhalf]
      exact ⟨h, hh, hm, ht.symm⟩
  · rintro ⟨s, ⟨hs, blanks, hb, rfl⟩, htime⟩
    -- The three sentences are the three values of the half of the day.
    obtain ⟨h, hh, hm, hhour⟩ := SpokenTime.time?_eq_some_iff.1 htime
    have hfaces := hs.faces hh hm
    rw [SpokenTime.suffix]
    cases hhalf : s.half with
    | none =>
      rw [hhalf] at hhour
      obtain rfl : h = t.hour := hhour
      show NamesTime (s.face ++ (blanks ++ [])) t
      rw [List.append_nil]
      exact .plain hfaces hb
    | some half =>
      rw [hhalf] at hhour
      cases half with
      | am => exact .am hfaces hb hhour.symm
      | pm => exact .pm hfaces hb hhour.symm

/-! ## Sentences -/

namespace Slot

theorem between?_eq_some_iff {t? u? : Option ClockTime} {slot : Slot} :
    between? t? u? = some slot ↔ ∃ t u, t? = some t ∧ u? = some u ∧ slot = between t u := by
  constructor
  · intro h
    obtain ⟨t, rfl, h⟩ := Option.bind_eq_some_iff.1 h
    obtain ⟨u, rfl, ⟨⟩⟩ := Option.bind_eq_some_iff.1 h
    exact ⟨t, u, rfl, rfl, rfl⟩
  · rintro ⟨t, u, rfl, rfl, rfl⟩
    rfl

theorem map_lasting_eq_some_iff {now : ClockTime} {n? : Option Nat} {slot : Slot} :
    n?.map (lasting now) = some slot ↔ ∃ n, n? = some n ∧ slot = lasting now n := by
  rw [Option.map_eq_some_iff]
  exact exists_congr fun n => and_congr_right fun _ => eq_comm

theorem ofShape_compact_eq_ok_iff {now : ClockTime} {x y : List Char} {slot : Slot} :
    ofShape now (.compact x y) = .ok (some slot) ↔
      ∃ t u, readCompactTime x = .ok (some t) ∧ readCompactTime y = .ok (some u) ∧
        slot = between t u := by
  have hbind : ofShape now (.compact x y) = readCompactTime x >>= fun t? =>
      readCompactTime y >>= fun u? => .ok (between? t? u?) := rfl
  simp only [hbind, bind_eq_ok_iff, Except.ok.injEq, between?_eq_some_iff]
  constructor
  · rintro ⟨_, hx, _, hy, t, u, rfl, rfl, rfl⟩
    exact ⟨t, u, hx, hy, rfl⟩
  · rintro ⟨t, u, hx, hy, rfl⟩
    exact ⟨_, hx, _, hy, t, u, rfl, rfl, rfl⟩

theorem isEmpty_of_ofShape {now : ClockTime} {shape : Shape} {slot : Slot}
    (h : ofShape now shape = .ok (some slot)) : slot.isEmpty = false := by
  cases shape with
  | now =>
    cases h
    rfl
  | fromNow a =>
    obtain ⟨n, -, rfl⟩ := map_lasting_eq_some_iff.1 (Except.ok.inj h)
    rfl
  | amount a =>
    obtain ⟨n, -, rfl⟩ := map_lasting_eq_some_iff.1 (Except.ok.inj h)
    rfl
  | compact x y =>
    obtain ⟨t, u, -, -, rfl⟩ := ofShape_compact_eq_ok_iff.1 h
    rfl
  | between t u =>
    obtain ⟨t, u, -, -, rfl⟩ := between?_eq_some_iff.1 (Except.ok.inj h)
    rfl
  | startAndAmount t a =>
    obtain ⟨t, -, h⟩ := Option.bind_eq_some_iff.1 (Except.ok.inj h)
    obtain ⟨n, -, ⟨⟩⟩ := Option.bind_eq_some_iff.1 h
    rfl

/-- A text resolves to a slot if it spells a shape that describes the slot. -/
theorem readChars_resolves_iff {now : ClockTime} {cs : List Char} {slot : Slot} :
    readChars now cs = .ok slot ∧ slot.isEmpty = false ↔
      ∃ shape : Shape, shape.Spells cs ∧ ofShape now shape = .ok (some slot) := by
  unfold readChars
  constructor
  · rintro ⟨h, hslot⟩
    split at h
    · cases h
      cases hslot
    · rename_i shape hshape
      obtain ⟨slot?, hread, rfl⟩ := map_eq_ok_iff.1 h
      refine ⟨shape, Shape.read?_eq_some_iff.1 hshape, ?_⟩
      cases slot? with
      | none => cases hslot
      | some slot => exact hread
  · rintro ⟨shape, hspells, hread⟩
    rw [Shape.read?_eq_some_iff.2 hspells]
    show (ofShape now shape).map _ = _ ∧ _
    rw [hread]
    exact ⟨rfl, isEmpty_of_ofShape hread⟩

/-- What a sentence means is what the shape it spells describes. -/
theorem means_iff {now : ClockTime} {cs : List Char} {slot : Slot} :
    Means now cs slot ↔
      ∃ shape : Shape, shape.Spells cs ∧ ofShape now shape = .ok (some slot) := by
  -- A sentence and a shape have the same cases; the words it says are those that the shape spells.
  constructor
  · intro h
    cases h with
    | now => exact ⟨.now, .now, rfl⟩
    | fromNow hcs =>
      obtain ⟨a, ha, hn⟩ := lasts_iff.1 hcs
      exact ⟨.fromNow a, .fromNow ha,
        congrArg Except.ok (map_lasting_eq_some_iff.2 ⟨_, hn, rfl⟩)⟩
    | amount hcs =>
      obtain ⟨a, ha, hn⟩ := lasts_iff.1 hcs
      exact ⟨.amount a, .amount ha,
        congrArg Except.ok (map_lasting_eq_some_iff.2 ⟨_, hn, rfl⟩)⟩
    | compact hx hy =>
      exact ⟨_, .compact hx.isCompactGroup hy.isCompactGroup,
        ofShape_compact_eq_ok_iff.2 ⟨_, _, hx.readCompactTime, hy.readCompactTime, rfl⟩⟩
    | between hx hne hgap hy =>
      obtain ⟨t, ht, htime⟩ := namesTime_iff.1 hx
      obtain ⟨u, hu, hutime⟩ := namesTime_iff.1 hy
      refine ⟨_, .between ht hne (fun c hc => ?_) hu,
        congrArg Except.ok (between?_eq_some_iff.2 ⟨_, _, htime, hutime, rfl⟩)⟩
      simpa [isGap] using hgap c hc
    | startAndAmount hx hy =>
      obtain ⟨t, ht, htime⟩ := namesTime_iff.1 hx
      obtain ⟨a, ha, hn⟩ := lasts_iff.1 hy
      refine ⟨_, .startAndAmount ht ha, ?_⟩
      show Except.ok (t.time?.bind fun t => a.minutes?.bind fun n => some (lasting t n)) = _
      rw [htime, hn]
      rfl
  · rintro ⟨shape, hspells, h⟩
    cases hspells with
    | now =>
      cases h
      exact .now
    | fromNow ha =>
      obtain ⟨n, hn, rfl⟩ := map_lasting_eq_some_iff.1 (Except.ok.inj h)
      exact .fromNow (lasts_iff.2 ⟨_, ha, hn⟩)
    | amount ha =>
      obtain ⟨n, hn, rfl⟩ := map_lasting_eq_some_iff.1 (Except.ok.inj h)
      exact .amount (lasts_iff.2 ⟨_, ha, hn⟩)
    | compact hs hf =>
      obtain ⟨t, u, ht, hu, rfl⟩ := ofShape_compact_eq_ok_iff.1 h
      exact .compact (namesCompactTime_of_readCompactTime hs ht)
        (namesCompactTime_of_readCompactTime hf hu)
    | between ht hne hgap hu =>
      obtain ⟨t, u, htime, hutime, rfl⟩ := between?_eq_some_iff.1 (Except.ok.inj h)
      refine .between (namesTime_iff.2 ⟨_, ht, htime⟩) hne (fun c hc => ?_)
        (namesTime_iff.2 ⟨_, hu, hutime⟩)
      simpa [isGap] using hgap c hc
    | startAndAmount ht ha =>
      obtain ⟨t, htime, h⟩ := Option.bind_eq_some_iff.1 (Except.ok.inj h)
      obtain ⟨n, hn, ⟨⟩⟩ := Option.bind_eq_some_iff.1 h
      exact .startAndAmount (namesTime_iff.2 ⟨_, ht, htime⟩) (lasts_iff.2 ⟨_, ha, hn⟩)

/-- Whatever a time expression means has a start. -/
theorem Means.isSome_start {now : ClockTime} {cs : List Char} {slot : Slot}
    (h : Means now cs slot) : slot.start.isSome = true := by
  cases h <;> rfl

theorem isSome_start_of_read {now : ClockReading} {expression : List Char} {slot : Slot}
    (hread : Slot.read now expression = .ok slot) (hslot : slot.isEmpty = false) :
    slot.start.isSome = true :=
  (means_iff.2 (readChars_resolves_iff.1 ⟨hread, hslot⟩)).isSome_start

/-- A sentence in lower case and without blanks is read as the slot that it means. -/
theorem read_of_means {now : ClockReading} {cs : List Char} {slot : Slot}
    (hcs : ∀ c ∈ cs, isBlank c = false ∧ lowerChar c = [c])
    (h : Means (ClockTime.ofReading now) cs slot) : Slot.read now cs = .ok slot := by
  rw [Slot.read, trim_eq_self_of_not_blank fun c hc => (hcs c hc).1,
    lower_eq_self fun c hc => (hcs c hc).2]
  exact (readChars_resolves_iff.2 (means_iff.1 h)).1

end Slot

end Shorthand
