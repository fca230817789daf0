import Mathlib.Data.List.Induction
import Shorthand.Proofs.Text.Number
import Shorthand.Settings.Text

/-!
Values in a settings file: how numbers and names are written. `wholeNumber?_eq_some_iff` says that
exactly the numbers that are written are read.
-/

namespace Shorthand

open Text Yaml

/-! ## Numbers -/

inductive DigitsIn (base : Nat) : List Char → Nat → Prop
  | one {c : Char} {d : Nat} (hc : hexValue? c = some d) (hd : d < base) : DigitsIn base [c] d
  | more {cs : List Char} {n d : Nat} {c : Char} (h : DigitsIn base cs n)
      (hc : hexValue? c = some d) (hd : d < base) : DigitsIn base (cs ++ [c]) (base * n + d)

/-- The text spells a number without a sign: in decimal without leading zeros, or in another base
behind its mark. -/
inductive SpellsUnsigned : List Char → Nat → Prop
  | decimal {c : Char} {cs : List Char} {n : Nat} (hzero : c = '0' → cs = [])
      (h : DigitsIn 10 (c :: cs) n) : SpellsUnsigned (c :: cs) n
  | hexadecimal {cs : List Char} {n : Nat} (h : DigitsIn 16 cs n) :
      SpellsUnsigned ('0' :: 'x' :: cs) n
  | octal {cs : List Char} {n : Nat} (h : DigitsIn 8 cs n) : SpellsUnsigned ('0' :: 'o' :: cs) n
  | binary {cs : List Char} {n : Nat} (h : DigitsIn 2 cs n) : SpellsUnsigned ('0' :: 'b' :: cs) n

inductive SpellsNumber : List Char → Nat → Prop
  | bare {cs : List Char} {n : Nat} (h : SpellsUnsigned cs n) : SpellsNumber cs n
  | plus {cs : List Char} {n : Nat} (h : SpellsUnsigned cs n) : SpellsNumber ('+' :: cs) n

def digitBehind (base n : Nat) (c : Char) : Option Nat :=
  (hexValue? c).bind fun d => if d < base then some (base * n + d) else none

theorem digitBehind_eq_some_iff {base n m : Nat} {c : Char} :
    digitBehind base n c = some m ↔ ∃ d, hexValue? c = some d ∧ d < base ∧ m = base * n + d := by
  unfold digitBehind
  rw [Option.bind_eq_some_iff]
  refine exists_congr fun d => and_congr_right fun _ => ?_
  by_cases hd : d < base
  · simp [hd, eq_comm]
  · simp [hd]

/-- Reading digit by digit gives the number that the digits spell. -/
theorem foldlM_digitBehind_iff {base n : Nat} {cs : List Char} :
    cs ≠ [] ∧ cs.foldlM (digitBehind base) 0 = some n ↔ DigitsIn base cs n := by
  constructor
  · rintro ⟨hcs, hfold⟩
    induction cs using List.reverseRecOn generalizing n with
    | nil => exact absurd rfl hcs
    | append_singleton cs c ih =>
      rw [List.foldlM_append] at hfold
      obtain ⟨m, hm, hlast⟩ := Option.bind_eq_some_iff.1 hfold
      have hlast : digitBehind base m c = some n := by simpa using hlast
      obtain ⟨d, hc, hd, rfl⟩ := digitBehind_eq_some_iff.1 hlast
      by_cases hnil : cs = []
      · subst hnil
        obtain rfl : 0 = m := Option.some.inj hm
        simpa using DigitsIn.one hc hd
      · exact .more (ih hnil hm) hc hd
  · intro h
    induction h with
    | one hc hd => exact ⟨by simp, by simp [digitBehind, hc, hd]⟩
    | more h hc hd ih =>
      refine ⟨by simp, ?_⟩
      rw [List.foldlM_append, ih.2]
      simp [digitBehind, hc, hd]

theorem digitsIn?_eq_some_iff {base n : Nat} {cs : List Char} :
    digitsIn? base cs = some n ↔ DigitsIn base cs n := by
  rw [← foldlM_digitBehind_iff]
  cases cs with
  | nil => simp [digitsIn?]
  | cons x cs =>
    rw [digitsIn?, if_neg (by simp)]
    exact (and_iff_right (by simp)).symm

theorem DigitsIn.ne_nil {base n : Nat} {cs : List Char} (h : DigitsIn base cs n) : cs ≠ [] :=
  (foldlM_digitBehind_iff.2 h).1

/-- Every character of a spelling is a digit. -/
theorem DigitsIn.hexValue {base n : Nat} {cs : List Char} (h : DigitsIn base cs n) :
    ∀ c ∈ cs, (hexValue? c).isSome = true := by
  induction h with
  | one hc hd => simp [hc]
  | more h hc hd ih =>
    intro c hmem
    rcases List.mem_append.1 hmem with hmem | hmem
    · exact ih c hmem
    · rw [List.mem_singleton.1 hmem, hc]
      rfl

/-- A number is spelled by its own digits. -/
theorem digitsIn_digits (n : Nat) : DigitsIn 10 (digits n) n := by
  induction n using Nat.strongRecOn with
  | ind n ih =>
    by_cases hn : n < 10
    · have hdigits : digits n = [Nat.digitChar n] := Nat.toDigits_of_lt_base hn
      rw [hdigits]
      exact .one (hexValue?_digitChar (by omega)) hn
    · have hdigits : digits n = digits (n / 10) ++ [Nat.digitChar (n % 10)] :=
        Nat.toDigits_of_base_le (by decide) (by omega)
      have hmore := DigitsIn.more (ih (n / 10) (by omega))
        (hexValue?_digitChar (show n % 10 < 16 by omega)) (Nat.mod_lt n (by decide))
      rw [hdigits]
      rwa [Nat.div_add_mod] at hmore

/-- A number is spelled by its digits. -/
theorem spellsNumber_digits (n : Nat) : SpellsNumber (digits n) n := by
  have hdigits := digitsIn_digits n
  cases hcs : digits n with
  | nil => exact absurd hcs (digits_ne_nil n)
  | cons c cs =>
    rw [hcs] at hdigits
    refine .bare (.decimal ?_ hdigits)
    rintro rfl
    obtain rfl := head?_digits (n := n) (by rw [hcs]; rfl)
    exact (List.cons.inj (hcs.symm.trans (show digits 0 = ['0'] by decide))).2

def unsignedNumber? : List Char → Option Nat
  | '0' :: 'x' :: rest => digitsIn? 16 rest
  | '0' :: 'o' :: rest => digitsIn? 8 rest
  | '0' :: 'b' :: rest => digitsIn? 2 rest
  | '0' :: _ :: _ => none
  | digits => digitsIn? 10 digits

theorem wholeNumber?_of_ne {cs : List Char} (h : ∀ rest, cs ≠ '+' :: rest) :
    wholeNumber? cs = unsignedNumber? cs := by
  unfold wholeNumber?
  split
  · exact absurd rfl (h _)
  · rfl

/-- A text is read as a number without a sign exactly if it spells one. -/
theorem unsignedNumber?_eq_some_iff {cs : List Char} {n : Nat} :
    unsignedNumber? cs = some n ↔ SpellsUnsigned cs n := by
  constructor
  · intro h
    unfold unsignedNumber? at h
    split at h
    · exact .hexadecimal (digitsIn?_eq_some_iff.1 h)
    · exact .octal (digitsIn?_eq_some_iff.1 h)
    · exact .binary (digitsIn?_eq_some_iff.1 h)
    · cases h
    · -- A zero in front of other characters is taken by the cases above.
      rename_i hzero
      have hdigits := digitsIn?_eq_some_iff.1 h
      rcases cs with _ | ⟨c, _ | ⟨c', cs⟩⟩
      · exact absurd rfl hdigits.ne_nil
      · exact .decimal (fun _ => rfl) hdigits
      · refine .decimal (fun hc => ?_) hdigits
        subst hc
        exact (hzero c' cs rfl).elim
  · intro h
    cases h with
    | @decimal c cs n hzero h =>
      have hdigits := digitsIn?_eq_some_iff.2 h
      by_cases hc : c = '0'
      · obtain rfl := hc
        obtain rfl := hzero rfl
        exact hdigits
      · unfold unsignedNumber?
        split
        · exact absurd (List.cons.inj ‹_›).1 hc
        · exact absurd (List.cons.inj ‹_›).1 hc
        · exact absurd (List.cons.inj ‹_›).1 hc
        · exact absurd (List.cons.inj ‹_›).1 hc
        · exact hdigits
    | hexadecimal h => exact digitsIn?_eq_some_iff.2 h
    | octal h => exact digitsIn?_eq_some_iff.2 h
    | binary h => exact digitsIn?_eq_some_iff.2 h

theorem SpellsUnsigned.ne_plus {cs : List Char} {n : Nat} (h : SpellsUnsigned cs n) :
    ∀ rest, cs ≠ '+' :: rest := by
  rintro rest rfl
  cases h with
  | decimal hzero h =>
    have hplus := h.hexValue '+' (List.mem_cons_self ..)
    exact absurd hplus (by decide)

/-- Exactly the numbers that are spelled are read. -/
theorem wholeNumber?_eq_some_iff {cs : List Char} {n : Nat} :
    wholeNumber? cs = some n ↔ SpellsNumber cs n := by
  constructor
  · intro h
    by_cases hplus : ∃ rest, cs = '+' :: rest
    · obtain ⟨rest, rfl⟩ := hplus
      exact .plus (unsignedNumber?_eq_some_iff.1 h)
    · rw [wholeNumber?_of_ne (not_exists.1 hplus)] at h
      exact .bare (unsignedNumber?_eq_some_iff.1 h)
  · rintro (h | h)
    · rw [wholeNumber?_of_ne h.ne_plus]
      exact unsignedNumber?_eq_some_iff.2 h
    · exact unsignedNumber?_eq_some_iff.2 h

/-! ## Values of nodes -/

namespace Settings

variable {d : Document} {node : Node}

/-- The node is a scalar that spells a name, with no tag of the document's own in front. -/
inductive WritesName (d : Document) (node : Node) (name : String) : Prop
  | mk {p : Properties} {style : ScalarStyle} (htag : localTag? p = none)
      (h : d.resolve? node = some (.scalar p style name))

inductive WritesNumber (d : Document) (node : Node) (n : Nat) : Prop
  | mk {p : Properties} {text : String} (hn : SpellsNumber text.toList n)
      (h : d.resolve? node = some (.scalar p .plain text))

theorem WritesName.name? {name : String} (h : WritesName d node name) :
    Settings.name? d node = some name := by
  obtain ⟨htag, hnode⟩ := h
  simp only [Settings.name?, hnode, htag]

theorem WritesNumber.number? {n : Nat} (h : WritesNumber d node n) :
    Settings.number? d node = some n := by
  obtain ⟨hn, hnode⟩ := h
  simp [Settings.number?, hnode, wholeNumber?_eq_some_iff.2 hn]

theorem WritesNumber.word32? {n : UInt32} (h : WritesNumber d node n.toNat) :
    Settings.word32? d node = some n := by
  simp [Settings.word32?, h.number?, n.toNat_lt]

theorem WritesNumber.word64? {n : UInt64} (h : WritesNumber d node n.toNat) :
    Settings.word64? d node = some n := by
  simp [Settings.word64?, h.number?, n.toNat_lt]

end Settings

end Shorthand
