import Shorthand.Proofs.Task.Parts

/-!
Tasks as they are written. `Task.Spelling.read_chars` says that the spelling of a task is read back
as the task, with the words of its name, its minutes and its place in the order.
-/

namespace Shorthand

open Text

namespace Task

/-! ## The place in the order -/

def order? (name : List Char) : Option (Nat × List Char) := do
  let (order, name) ← orderAndName? name
  some (← readNatUpTo? maxNat32 order, name)

/-- A place in the order is a number in front of a name that fits its word. -/
theorem order?_eq_some_iff {name rest : List Char} {n : Nat} :
    order? name = some (n, rest) ↔ ∃ digits, name = digits ++ '-' :: rest ∧ IsNumeral digits n ∧
      n ≤ 4294967295 ∧ isName rest = true := by
  have hbind : order? name = (cutAtFirst? '-' name).bind fun p =>
      (if isDigits p.1 && isName p.2 then some (p.1, p.2) else none).bind fun q =>
        (readNatUpTo? maxNat32 q.1).bind fun n => some (n, q.2) := by
    unfold order? orderAndName?
    cases cutAtFirst? '-' name <;> rfl
  rw [hbind, Option.bind_eq_some_iff]
  constructor
  · rintro ⟨⟨digits, tail⟩, hcut, h⟩
    obtain ⟨⟨_, _⟩, hparts, h⟩ := Option.bind_eq_some_iff.1 h
    obtain ⟨m, hm, ⟨⟩⟩ := Option.bind_eq_some_iff.1 h
    split at hparts
    · rename_i hgood
      cases hparts
      obtain ⟨hnumeral, hle⟩ := readNatUpTo?_eq_some_iff.1 hm
      exact ⟨digits, (cutAtFirst?_eq_some_iff.1 hcut).1, hnumeral, hle,
        (Bool.and_eq_true_iff.1 hgood).2⟩
    · cases hparts
  · rintro ⟨digits, rfl, hnumeral, hle, hrest⟩
    -- A hyphen is no digit, so the hyphen behind the digits is the first one.
    have hfirst : '-' ∉ digits := fun hmem => absurd (hnumeral.isDecimal '-' hmem) (by decide)
    have hdigits : isDigits digits = true := isDigits_iff.2 ⟨hnumeral.ne_nil, hnumeral.isDecimal⟩
    have hread : readNatUpTo? maxNat32 digits = some n :=
      readNatUpTo?_eq_some_iff.2 ⟨hnumeral, hle⟩
    refine ⟨(digits, rest), cutAtFirst?_eq_some_iff.2 ⟨rfl, hfirst⟩, ?_⟩
    simp only [hdigits, hrest, hread, Bool.and_self, if_true, Option.bind_some]

section Parts

variable {name minutes : List Char} (hname : isName name = true)
  (hminutes : isDigits minutes = true)

include hname hminutes

theorem readTrimmed?_of_order {n : Nat} {rest : List Char} (horder : order? name = some (n, rest)) :
    readTrimmed? (name ++ '-' :: minutes) =
      (ofParts? rest minutes).map fun t => { t with order := some n } := by
  unfold readTrimmed?
  rw [nameAndMinutes?_eq_some_iff.2 ⟨rfl, hname, hminutes⟩]
  simp only [Option.bind_eq_bind, Option.bind_some]
  split
  · rename_i m tail h
    have h : order? name = some (m, tail) := h
    rw [horder] at h
    cases h
    rfl
  · rename_i h
    have h : order? name = none := h
    rw [horder] at h
    cases h

theorem readTrimmed?_of_no_order (horder : order? name = none) :
    readTrimmed? (name ++ '-' :: minutes) = ofParts? name minutes := by
  unfold readTrimmed?
  rw [nameAndMinutes?_eq_some_iff.2 ⟨rfl, hname, hminutes⟩]
  simp only [Option.bind_eq_bind, Option.bind_some]
  split
  · rename_i m tail h
    have h : order? name = some (m, tail) := h
    rw [horder] at h
    cases h
  · rfl

end Parts

/-! ## Names -/

theorem isName_of_not_blank {cs : List Char} (hne : cs ≠ [])
    (h : ∀ c ∈ cs, isBlank c = false) : isName cs = true :=
  isName_iff.2 ⟨hne, fun hmem => absurd (h '\n' hmem) (by decide)⟩

/-- The words of a name: there is one, and no word is empty or holds a blank or a hyphen. -/
structure IsWords (ws : List (List Char)) : Prop where
  ne_nil : ws ≠ []
  word_ne_nil : ∀ w ∈ ws, w ≠ []
  no_blank : ∀ w ∈ ws, ∀ c ∈ w, isBlank c = false
  no_hyphen : ∀ w ∈ ws, '-' ∉ w

/-- The first of several words is no number that would be a place in the order. -/
def NoPlace (ws : List (List Char)) : Prop :=
  ∀ first second rest, ws = first :: second :: rest → ∀ n, IsNumeral first n → 4294967295 < n

section Names

variable {ws : List (List Char)} (hws : IsWords ws)

include hws

theorem IsWords.no_blank_joinWith : ∀ c ∈ joinWith ['-'] ws, isBlank c = false := by
  intro c hc
  rcases mem_joinWith hc with hc | ⟨w, hw, hc⟩
  · obtain rfl : c = '-' := List.mem_singleton.1 hc
    decide
  · exact hws.no_blank w hw c hc

theorem IsWords.isName : isName (joinWith ['-'] ws) = true :=
  isName_of_not_blank (joinWith_ne_nil hws.ne_nil hws.word_ne_nil) hws.no_blank_joinWith

/-- Words that are joined by hyphens are found again in the name. -/
theorem IsWords.nameOf : nameOf (joinWith ['-'] ws) = joinWith [' '] ws := by
  have hmap : (joinWith ['-'] ws).map (fun c => if c = '-' then ' ' else c) =
      joinWith [' '] ws := by
    obtain ⟨-, -, -, hhyphen⟩ := hws
    induction ws with
    | nil => rfl
    | cons w ws ih =>
      obtain ⟨hw, hrest⟩ := List.forall_mem_cons.1 hhyphen
      have hself : w.map (fun c => if c = '-' then ' ' else c) = w := by
        conv => rhs; rw [← List.map_id w]
        refine List.map_congr_left fun c hc => if_neg ?_
        rintro rfl
        exact hw hc
      cases ws with
      | nil => rw [joinWith_singleton, joinWith_singleton, hself]
      | cons v ws =>
        rw [joinWith_cons_cons, joinWith_cons_cons, List.map_append, List.map_append, hself,
          ih hrest]
        rfl
  rw [Task.nameOf, hmap,
    words_joinWith_space fun w hw => ⟨hws.word_ne_nil w hw, hws.no_blank w hw⟩]

theorem IsWords.ofParts?_eq_some {minutes : List Char} {n : Nat} (hminutes : IsNumeral minutes n)
    (hpos : 0 < n) (hle : n ≤ 4294967295) : ofParts? (joinWith ['-'] ws) minutes =
      some { name := String.ofList (joinWith [' '] ws), minutes := n } := by
  rw [ofParts?_eq_some_iff, hws.nameOf]
  exact ⟨n, hminutes, hpos, hle, joinWith_ne_nil hws.ne_nil hws.word_ne_nil, rfl⟩

/-- Words hold no place in the order if the first of several words is no number that would be
one. -/
theorem IsWords.order?_eq_none (hnone : NoPlace ws) : order? (joinWith ['-'] ws) = none := by
  cases h : order? (joinWith ['-'] ws) with
  | none => rfl
  | some found =>
    obtain ⟨number, hname, hnumeral, hle, -⟩ := order?_eq_some_iff.1 h
    have hnumber : '-' ∉ number := fun hmem => absurd (hnumeral.isDecimal '-' hmem) (by decide)
    -- The number ends at the first hyphen, so it is the first word, and there is another one.
    cases ws with
    | nil => exact absurd rfl hws.ne_nil
    | cons first rest =>
      have hfirst : '-' ∉ first := hws.no_hyphen first List.mem_cons_self
      cases rest with
      | nil =>
        rw [joinWith_singleton] at hname
        exact absurd (hname ▸ by simp) hfirst
      | cons second rest =>
        rw [joinWith_cons_cons, List.singleton_append] at hname
        have hcut := cutAtFirst?_eq_some_iff.2 ⟨hname, hnumber⟩
        rw [cutAtFirst?_eq_some_iff.2 ⟨rfl, hfirst⟩] at hcut
        obtain rfl : first = number := congrArg Prod.fst (Option.some.inj hcut)
        have hlarge := hnone first second rest rfl _ hnumeral
        omega

end Names

/-! ## Spellings -/

/-- A task as it is written: its place in the order, if it has one, the words of its name, and its
minutes. Where no place is written, the first of several words is no number that would be one. -/
structure Spelling where
  order : Option Nat
  name : List (List Char)
  minutes : Nat
  order_le : ∀ n ∈ order, n ≤ 4294967295
  isWords : IsWords name
  minutes_pos : 0 < minutes
  minutes_le : minutes ≤ 4294967295
  no_number : order = none → ∀ first second rest, name = first :: second :: rest →
    ∀ n, IsNumeral first n → 4294967295 < n

namespace Spelling

variable (s : Spelling)

def front : List Char :=
  match s.order with
  | none => joinWith ['-'] s.name
  | some n => digits n ++ '-' :: joinWith ['-'] s.name

def chars : List Char := s.front ++ '-' :: digits s.minutes

def task : Task :=
  { name := String.ofList (joinWith [' '] s.name), minutes := s.minutes, order := s.order }

theorem isNumeral_digits (n : Nat) : IsNumeral (digits n) n :=
  readNat?_eq_some_iff.1 (readNat?_digits n)

theorem isDigits_digits (n : Nat) : isDigits (digits n) = true :=
  isDigits_iff.2 ⟨digits_ne_nil n, (isNumeral_digits n).isDecimal⟩

/-- Behind a text without blanks, a hyphen and a number make another one. -/
theorem no_blank_append {cs ds : List Char} (hcs : ∀ c ∈ cs, isBlank c = false)
    (hds : ∀ c ∈ ds, isBlank c = false) : ∀ c ∈ cs ++ '-' :: ds, isBlank c = false := by
  have hhyphen : isBlank '-' = false := by decide
  intro c hc
  rcases List.mem_append.1 hc with hc | hc
  · exact hcs c hc
  · rcases List.mem_cons.1 hc with rfl | hc
    · exact hhyphen
    · exact hds c hc

theorem no_blank_digits (n : Nat) : ∀ c ∈ digits n, isBlank c = false := fun c hc =>
  isBlank_of_isDecimal ((isNumeral_digits n).isDecimal c hc)

theorem no_blank_front : ∀ c ∈ s.front, isBlank c = false := by
  unfold front
  split
  · exact s.isWords.no_blank_joinWith
  · exact no_blank_append (no_blank_digits _) s.isWords.no_blank_joinWith

/-- A task is written as one word. -/
theorem no_blank_chars : ∀ c ∈ s.chars, isBlank c = false :=
  no_blank_append s.no_blank_front (no_blank_digits _)

theorem chars_ne_nil : s.chars ≠ [] := by
  simp [chars]

theorem front_ne_nil : s.front ≠ [] := by
  unfold front
  split
  · exact joinWith_ne_nil s.isWords.ne_nil s.isWords.word_ne_nil
  · simp

/-- The words of a name hold no place in the order, if none is written in front of them. -/
theorem order?_name (horder : s.order = none) : order? (joinWith ['-'] s.name) = none :=
  s.isWords.order?_eq_none (s.no_number horder)

theorem ofParts?_name : ofParts? (joinWith ['-'] s.name) (digits s.minutes) =
    some { name := String.ofList (joinWith [' '] s.name), minutes := s.minutes } :=
  s.isWords.ofParts?_eq_some (isNumeral_digits s.minutes) s.minutes_pos s.minutes_le

/-- What is written is read back. -/
theorem read_chars : read? s.chars = some s.task := by
  have hfront : isName s.front = true := isName_of_not_blank s.front_ne_nil s.no_blank_front
  have hminutes := isDigits_digits s.minutes
  rw [read?, trim_eq_self_of_not_blank s.no_blank_chars, chars]
  cases horder : s.order with
  | none =>
    have hname : s.front = joinWith ['-'] s.name := by rw [front, horder]
    rw [readTrimmed?_of_no_order hfront hminutes (hname ▸ s.order?_name horder), hname,
      s.ofParts?_name, task, horder]
  | some n =>
    have hname : s.front = digits n ++ '-' :: joinWith ['-'] s.name := by rw [front, horder]
    have hplace : order? s.front = some (n, joinWith ['-'] s.name) := order?_eq_some_iff.2
      ⟨_, hname, isNumeral_digits n, s.order_le n horder, s.isWords.isName⟩
    rw [readTrimmed?_of_order hfront hminutes hplace, s.ofParts?_name, task, horder]
    rfl

end Spelling

end Task

end Shorthand
