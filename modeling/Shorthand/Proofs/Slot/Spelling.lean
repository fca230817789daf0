import Mathlib.Data.List.Basic
import Shorthand.Proofs.Text.Run
import Shorthand.Slot.Shape

/-!
The spellings of time expressions, said without a reader. `Shape.read?_eq_some_iff` says that the
reader recognises exactly the spellings, and `Shape.Spells.unique` that no text spells two shapes.
-/

namespace Shorthand

open Text

def TimeUnit.letter : TimeUnit → Char
  | .hours => 'h'
  | .minutes => 'm'

theorem TimeUnit.ofChar?_eq_some_iff {c : Char} {u : TimeUnit} :
    ofChar? c = some u ↔ c = u.letter := by
  constructor
  · intro h
    unfold ofChar? at h
    split at h <;> cases h <;> rfl
  · rintro rfl
    cases u <;> rfl

theorem TimeUnit.isDecimal_letter (u : TimeUnit) : isDecimal u.letter = false := by
  cases u <;> decide

/-- `a` is written as digits, whatever their script, with the letter of the unit behind them. -/
structure Amount.Spells (a : Amount) (cs : List Char) : Prop where
  ne_nil : a.digits ≠ []
  isDecimal : ∀ c ∈ a.digits, isDecimal c = true
  eq : cs = a.digits ++ [a.unit.letter]

theorem Amount.read?_eq_some_iff {cs : List Char} {a : Amount} :
    Amount.read? cs = some a ↔ a.Spells cs := by
  constructor
  · intro h
    unfold Amount.read? at h
    split at h
    · rename_i c hrest
      split at h
      · cases h
      · rename_i hne
        obtain ⟨u, hu, rfl⟩ := Option.map_eq_some_iff.1 h
        obtain rfl := TimeUnit.ofChar?_eq_some_iff.1 hu
        refine ⟨hne, fun _ hc => List.mem_takeWhile_imp hc, ?_⟩
        show cs = cs.takeWhile isDecimal ++ [u.letter]
        rw [← hrest, List.takeWhile_append_dropWhile]
    · cases h
  · rintro ⟨hne, hdec, rfl⟩
    have hstop : ∀ c ∈ [a.unit.letter].head?, isDecimal c = false := by
      rintro c ⟨⟩
      exact a.unit.isDecimal_letter
    rw [Amount.read?, dropWhile_run hdec hstop, takeWhile_run hdec hstop]
    show (if a.digits = [] then none else (TimeUnit.ofChar? a.unit.letter).map _) = some a
    rw [if_neg hne, TimeUnit.ofChar?_eq_some_iff.2 rfl]
    rfl

def Half.letters : Half → List Char
  | .am => ['a', 'm']
  | .pm => ['p', 'm']

theorem Half.read?_eq_some_iff {cs rest : List Char} {h : Half} :
    Half.read? cs = some (h, rest) ↔ cs = h.letters ++ rest := by
  constructor
  · intro hread
    unfold Half.read? at hread
    split at hread <;> cases hread <;> rfl
  · rintro rfl
    cases h <;> rfl

theorem Half.read?_eq_none {cs : List Char} (h : ∀ c ∈ cs.head?, c ≠ 'a' ∧ c ≠ 'p') :
    Half.read? cs = none := by
  unfold Half.read?
  split
  · exact absurd rfl (h 'a' rfl).1
  · exact absurd rfl (h 'p' rfl).2
  · rfl

theorem isGap_of_isBlank {c : Char} (h : isBlank c = true) : isGap c = true := by
  rw [isGap, h, Bool.true_or]

theorem isGap_of_isDecimal {c : Char} (h : isDecimal c = true) : isGap c = false := by
  have hne : c ≠ '-' := by
    rintro rfl
    exact absurd h (by decide)
  simp [isGap, isBlank_of_isDecimal h, hne]

/-- What may stand between two times ends the digits of the first. -/
theorem stop_of_isGap {c : Char} (h : isGap c = true) : isDecimal c = false ∧ c ≠ ':' := by
  constructor
  · cases hdec : isDecimal c with
    | false => rfl
    | true => rw [isGap_of_isDecimal hdec] at h; cases h
  · rintro rfl
    exact absurd h (by decide)

namespace SpokenTime

def face (t : SpokenTime) : List Char :=
  t.hour ++ match t.minute with
    | none => []
    | some minute => ':' :: minute

def suffix (t : SpokenTime) : List Char :=
  match t.half with
  | none => []
  | some half => half.letters

structure HasFace (t : SpokenTime) : Prop where
  length_hour : t.hour.length = 1 ∨ t.hour.length = 2
  isDecimal_hour : ∀ c ∈ t.hour, isDecimal c = true
  length_minute : ∀ minute ∈ t.minute, minute.length = 2
  isDecimal_minute : ∀ minute ∈ t.minute, ∀ c ∈ minute, isDecimal c = true

/-- `t` is written as its digits and its half of the day, with blanks between the two. -/
def Spells (t : SpokenTime) (cs : List Char) : Prop :=
  t.HasFace ∧ ∃ blanks, (∀ c ∈ blanks, isBlank c = true) ∧ cs = t.face ++ (blanks ++ t.suffix)

theorem HasFace.hour_ne_nil {t : SpokenTime} (ht : t.HasFace) : t.hour ≠ [] := by
  have := ht.length_hour
  rw [← List.length_pos_iff]
  omega

theorem HasFace.head?_face {t : SpokenTime} (ht : t.HasFace) {rest : List Char} {c : Char}
    (hc : c ∈ (t.face ++ rest).head?) : isDecimal c = true := by
  rw [face, List.append_assoc, List.head?_append_of_ne_nil _ ht.hour_ne_nil] at hc
  exact ht.isDecimal_hour c (List.mem_of_mem_head? hc)

/-- The digits of a time are read back in front of what ends them. -/
theorem HasFace.readFace? {t : SpokenTime} (ht : t.HasFace) {rest : List Char}
    (hrest : ∀ c ∈ rest.head?, isDecimal c = false ∧ c ≠ ':') :
    readFace? (t.face ++ rest) = some (t.hour, t.minute, rest) := by
  have hstop : ∀ c ∈ rest.head?, isDecimal c = false := fun c hc => (hrest c hc).1
  obtain ⟨hour, minute, half⟩ := t
  cases minute with
  | none =>
    show Shorthand.readFace? (hour ++ [] ++ rest) = some (hour, none, rest)
    rw [List.append_nil, Shorthand.readFace?, takeWhile_run ht.isDecimal_hour hstop,
      dropWhile_run ht.isDecimal_hour hstop, if_pos ht.length_hour]
    split
    · exact absurd rfl (hrest ':' rfl).2
    · rfl
  | some minute =>
    have hmin : ∀ c ∈ minute, isDecimal c = true := ht.isDecimal_minute minute rfl
    have hcolon : ∀ c ∈ (':' :: (minute ++ rest)).head?, isDecimal c = false := by
      rintro c ⟨⟩
      decide
    show Shorthand.readFace? (hour ++ ':' :: minute ++ rest) = some (hour, some minute, rest)
    rw [List.append_assoc, List.cons_append, Shorthand.readFace?,
      takeWhile_run ht.isDecimal_hour hcolon, dropWhile_run ht.isDecimal_hour hcolon,
      if_pos ht.length_hour]
    show (if ((minute ++ rest).takeWhile isDecimal).length = 2 then _ else none) = _
    rw [takeWhile_run hmin hstop, dropWhile_run hmin hstop, if_pos (ht.length_minute minute rfl)]

theorem hasFace_of_readFace? {cs hour rest : List Char} {minute : Option (List Char)}
    (h : readFace? cs = some (hour, minute, rest)) (half : Option Half) :
    HasFace ⟨hour, minute, half⟩ ∧ cs = face ⟨hour, minute, half⟩ ++ rest := by
  unfold Shorthand.readFace? at h
  have hcs : cs = cs.takeWhile isDecimal ++ cs.dropWhile isDecimal :=
    List.takeWhile_append_dropWhile.symm
  have hdec : ∀ c ∈ cs.takeWhile isDecimal, isDecimal c = true :=
    fun _ hc => List.mem_takeWhile_imp hc
  dsimp only at h
  split at h
  · rename_i hlen
    split at h
    · rename_i tail htail
      split at h
      · rename_i hmin
        cases h
        refine ⟨⟨hlen, hdec, ?_, ?_⟩, ?_⟩
        · rintro m ⟨⟩
          exact hmin
        · rintro m ⟨⟩ c hc
          exact List.mem_takeWhile_imp hc
        · show cs = (_ ++ ':' :: tail.takeWhile isDecimal) ++ tail.dropWhile isDecimal
          rw [List.append_assoc, List.cons_append, List.takeWhile_append_dropWhile, ← htail]
          exact hcs
      · cases h
    · cases h
      refine ⟨⟨hlen, hdec, ?_, ?_⟩, ?_⟩
      · rintro m ⟨⟩
      · rintro m ⟨⟩
      · show cs = (_ ++ []) ++ _
        rwa [List.append_nil]
  · cases h

/-- The reader of a time stops behind the half of the day if it is named, and behind the digits
otherwise. -/
theorem Spells.read? {t : SpokenTime} {cs rest : List Char} (ht : t.Spells cs)
    (hgap : ∀ c ∈ rest.head?, isGap c = true)
    (hhalf : ∀ c ∈ (trimStart rest).head?, c ≠ 'a' ∧ c ≠ 'p') :
    ∃ blanks, (∀ c ∈ blanks, isBlank c = true) ∧ (t.half.isSome = true → blanks = []) ∧
      SpokenTime.read? (cs ++ rest) = some (t, blanks ++ rest) := by
  obtain ⟨hface, blanks, hb, rfl⟩ := ht
  obtain ⟨hour, minute, half⟩ := t
  -- Blanks behind the digits are left to what follows, unless they lead to a half of the day.
  cases half with
  | none =>
    have hstop : ∀ c ∈ (blanks ++ rest).head?, isDecimal c = false ∧ c ≠ ':' := by
      cases blanks with
      | nil => exact fun c hc => stop_of_isGap (hgap c hc)
      | cons b blanks =>
        rintro c ⟨⟩
        exact stop_of_isGap (isGap_of_isBlank (hb b List.mem_cons_self))
    refine ⟨blanks, hb, fun h => absurd h (by simp), ?_⟩
    have htext : face ⟨hour, minute, none⟩ ++ (blanks ++ suffix ⟨hour, minute, none⟩) ++ rest =
        face ⟨hour, minute, none⟩ ++ (blanks ++ rest) := by
      simp [suffix]
    have hafter : Half.read? (trimStart (blanks ++ rest)) = none := by
      rw [trimStart_blanks_append hb, Half.read?_eq_none hhalf]
    rw [htext]
    simp only [SpokenTime.read?, hface.readFace? hstop, Option.bind_eq_bind, Option.bind_some,
      hafter]
  | some half =>
    have hletters : ∀ c ∈ (half.letters ++ rest).head?,
        isBlank c = false ∧ isDecimal c = false ∧ c ≠ ':' := by
      cases half <;> · rintro c ⟨⟩; decide
    have hstop : ∀ c ∈ (blanks ++ (half.letters ++ rest)).head?,
        isDecimal c = false ∧ c ≠ ':' := by
      cases blanks with
      | nil => exact fun c hc => (hletters c hc).2
      | cons b blanks =>
        rintro c ⟨⟩
        exact stop_of_isGap (isGap_of_isBlank (hb b List.mem_cons_self))
    refine ⟨[], by simp, fun _ => rfl, ?_⟩
    have htext : face ⟨hour, minute, some half⟩ ++ (blanks ++ suffix ⟨hour, minute, some half⟩) ++
        rest = face ⟨hour, minute, some half⟩ ++ (blanks ++ (half.letters ++ rest)) := by
      simp [suffix]
    have hafter : Half.read? (trimStart (blanks ++ (half.letters ++ rest))) =
        some (half, rest) := by
      rw [trimStart_blanks hb fun c hc => (hletters c hc).1, Half.read?_eq_some_iff.2 rfl]
    rw [htext]
    simp only [SpokenTime.read?, hface.readFace? hstop, Option.bind_eq_bind, Option.bind_some,
      hafter, List.nil_append]

/-- What is read as a time at the front of a text is spelled there. -/
theorem spells_of_read? {cs rest : List Char} {t : SpokenTime}
    (h : SpokenTime.read? cs = some (t, rest)) : ∃ x, t.Spells x ∧ cs = x ++ rest := by
  unfold SpokenTime.read? at h
  obtain ⟨⟨hour, minute, tail⟩, hread, h⟩ := Option.bind_eq_some_iff.1 h
  dsimp only at h
  split at h
  · rename_i half after hhalf
    cases h
    obtain ⟨hface, hcs⟩ := hasFace_of_readFace? hread (some half)
    obtain ⟨blanks, hb, htail⟩ := exists_blanks_append_trimStart tail
    rw [Half.read?_eq_some_iff.1 hhalf] at htail
    refine ⟨_, ⟨hface, blanks, hb, rfl⟩, ?_⟩
    rw [hcs, htail]
    simp [suffix]
  · cases h
    obtain ⟨hface, hcs⟩ := hasFace_of_readFace? hread none
    refine ⟨_, ⟨hface, [], by simp, rfl⟩, ?_⟩
    rw [hcs]
    simp [suffix]

/-- Blanks behind a time that names no half of the day belong to it. -/
theorem Spells.append_blanks {t : SpokenTime} {cs blanks : List Char} (ht : t.Spells cs)
    (hhalf : ¬ t.half.isSome = true) (hb : ∀ c ∈ blanks, isBlank c = true) :
    t.Spells (cs ++ blanks) := by
  obtain ⟨hface, inner, hinner, rfl⟩ := ht
  have hnone : t.suffix = [] := by
    rw [suffix]
    split
    · rfl
    · rename_i half heq
      exact absurd (by rw [heq]; rfl) hhalf
  refine ⟨hface, inner ++ blanks, ?_, by simp [hnone]⟩
  intro c hc
  rcases List.mem_append.1 hc with hc | hc
  · exact hinner c hc
  · exact hb c hc

/-- A text is read as one time exactly if it spells it. -/
theorem readLast?_eq_some_iff {cs : List Char} {t : SpokenTime} :
    readLast? cs = some t ↔ t.Spells cs := by
  constructor
  · intro h
    unfold readLast? at h
    obtain ⟨⟨u, rest⟩, hread, htime⟩ := Option.bind_eq_some_iff.1 h
    obtain ⟨x, hx, rfl⟩ := spells_of_read? hread
    dsimp only at htime
    -- Blanks at the end belong to the time only if no half of the day is named.
    by_cases hhalf : u.half.isSome = true
    · rw [if_pos hhalf] at htime
      split at htime
      · rename_i hend
        cases htime
        rwa [hend, List.append_nil]
      · cases htime
    · rw [if_neg hhalf] at htime
      split at htime
      · rename_i hend
        cases htime
        exact hx.append_blanks hhalf (isBlank_of_trimStart_eq_nil hend)
      · cases htime
  · intro ht
    have hend : ∀ c ∈ ([] : List Char).head?, isGap c = true := nofun
    obtain ⟨blanks, hb, hhalf, hread⟩ := ht.read? hend nofun
    rw [List.append_nil, List.append_nil] at hread
    rw [readLast?, hread]
    show (if (if t.half.isSome = true then blanks else trimStart blanks) = [] then some t else none)
      = some t
    have hblanks : trimStart blanks = [] := by
      have hnil : ∀ c ∈ ([] : List Char).head?, isBlank c = false := nofun
      have htrim := trimStart_blanks hb hnil
      rwa [List.append_nil] at htrim
    rw [if_pos]
    split
    · rename_i h
      exact hhalf h
    · exact hblanks

end SpokenTime

end Shorthand
