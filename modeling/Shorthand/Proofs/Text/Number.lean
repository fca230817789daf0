import Shorthand.Slot.Read
import Shorthand.Text.Digit

/-!
Runs of ASCII digits, the numbers they stand for and the bytes they take up. `readNat?_eq_some_iff`
and `cutAtByte?_eq_some_iff` say what is read and what is cut without going through a reader.
-/

namespace Shorthand

namespace Text

/-- `cs` is a non-empty run of ASCII digits for `n`, with any number of leading zeros. -/
structure IsNumeral (cs : List Char) (n : Nat) : Prop where
  ne_nil : cs ≠ []
  isDigit : ∀ c ∈ cs, c.isDigit = true
  value : Nat.ofDigitChars 10 cs 0 = n

/-- A text is read as a number exactly if it is a numeral of it. -/
theorem readNat?_eq_some_iff {cs : List Char} {n : Nat} :
    readNat? cs = some n ↔ IsNumeral cs n := by
  unfold readNat?
  constructor
  · intro h
    split at h
    · rename_i hcs
      exact ⟨hcs.1, List.all_eq_true.1 hcs.2, Option.some.inj h⟩
    · cases h
  · rintro ⟨hne, hdigit, rfl⟩
    rw [if_pos ⟨hne, List.all_eq_true.2 hdigit⟩]

theorem IsNumeral.isDecimal {cs : List Char} {n : Nat} (h : IsNumeral cs n) :
    ∀ c ∈ cs, Text.isDecimal c = true :=
  fun c hc => isDecimal_of_isDigit (h.isDigit c hc)

/-- A text is a numeral of one number at most. -/
theorem IsNumeral.unique {cs : List Char} {m n : Nat} (hm : IsNumeral cs m)
    (hn : IsNumeral cs n) : m = n :=
  hm.value.symm.trans hn.value

theorem readNatUpTo?_eq_some_iff {bound n : Nat} {cs : List Char} :
    readNatUpTo? bound cs = some n ↔ IsNumeral cs n ∧ n ≤ bound := by
  rw [readNatUpTo?, Option.filter_eq_some_iff, readNat?_eq_some_iff, decide_eq_true_iff]

/-- Only zero is written with a zero in front. -/
theorem head?_digits {n : Nat} (h : (digits n).head? = some '0') : n = 0 := by
  induction n using Nat.strongRecOn with
  | ind n ih =>
    by_cases hn : n < 10
    · have hsmall : ∀ m ∈ List.range 10, (digits m).head? = some '0' → m = 0 := by decide
      exact hsmall n (List.mem_range.2 hn) h
    · have hmore : digits n = digits (n / 10) ++ [Nat.digitChar (n % 10)] :=
        Nat.toDigits_of_base_le (by decide) (by omega)
      have hne : (digits (n / 10)).head? ≠ none := by simp [digits_ne_nil]
      rw [hmore, List.head?_append, Option.or_of_isSome (Option.isSome_iff_ne_none.2 hne)] at h
      have hfront := ih (n / 10) (by omega) h
      omega

theorem utf8ByteSize_ofList_cons (c : Char) (cs : List Char) :
    (String.ofList (c :: cs)).utf8ByteSize =
      c.utf8Size + (String.ofList cs).utf8ByteSize := by
  rw [String.ofList_cons, String.utf8ByteSize_append, String.utf8ByteSize_singleton]

theorem utf8Size_of_isDigit {c : Char} (h : c.isDigit = true) : c.utf8Size = 1 := by
  rw [Char.isDigit, Bool.and_eq_true, decide_eq_true_iff, decide_eq_true_iff] at h
  have hle : c.val.toNat ≤ 57 := h.2
  rw [Char.utf8Size_eq_one_iff]
  show c.val.toNat ≤ 127
  omega

theorem utf8ByteSize_of_isDigit {cs : List Char} (h : ∀ c ∈ cs, c.isDigit = true) :
    (String.ofList cs).utf8ByteSize = cs.length := by
  induction cs with
  | nil => rfl
  | cons c cs ih =>
    have hc := utf8Size_of_isDigit (h c List.mem_cons_self)
    have hcs := ih fun d hd => h d (List.mem_cons_of_mem c hd)
    rw [utf8ByteSize_ofList_cons, hc, hcs, List.length_cons, Nat.add_comm]

end Text

open Text

/-- A text is cut behind the bytes of its front, and nowhere inside a character. -/
theorem cutAtByte?_eq_some_iff {n : Nat} {cs front back : List Char} :
    cutAtByte? n cs = some (front, back) ↔
      cs = front ++ back ∧ (String.ofList front).utf8ByteSize = n := by
  -- By induction on the text: a cut takes the whole of its first character, or nothing.
  induction cs generalizing n front with
  | nil =>
    cases n with
    | zero =>
      constructor
      · rintro ⟨⟩
        exact ⟨rfl, rfl⟩
      · rintro ⟨hnil, -⟩
        obtain ⟨rfl, rfl⟩ := List.append_eq_nil_iff.1 hnil.symm
        rfl
    | succ n =>
      constructor
      · rintro ⟨⟩
      · rintro ⟨hnil, hsize⟩
        obtain ⟨rfl, rfl⟩ := List.append_eq_nil_iff.1 hnil.symm
        cases hsize
  | cons c cs ih =>
    have hpos : 0 < c.utf8Size := c.utf8Size_pos
    cases n with
    | zero =>
      constructor
      · rintro ⟨⟩
        exact ⟨rfl, rfl⟩
      · rintro ⟨hcs, hsize⟩
        cases front with
        | nil => exact congrArg (fun rest => some ([], rest)) hcs
        | cons d front =>
          obtain rfl : c = d := (List.cons.inj hcs).1
          rw [utf8ByteSize_ofList_cons] at hsize
          omega
    | succ n =>
      rw [cutAtByte?]
      constructor
      · intro h
        split at h
        · rename_i hle
          obtain ⟨⟨inner, rest⟩, hinner, ⟨⟩⟩ := Option.map_eq_some_iff.1 h
          obtain ⟨rfl, hsize⟩ := ih.1 hinner
          refine ⟨rfl, ?_⟩
          rw [utf8ByteSize_ofList_cons, hsize]
          omega
        · cases h
      · rintro ⟨hcs, hsize⟩
        cases front with
        | nil => cases hsize
        | cons d front =>
          obtain ⟨rfl, hrest⟩ := List.cons.inj hcs
          rw [utf8ByteSize_ofList_cons] at hsize
          have hinner := ih.2 ⟨hrest, rfl⟩
          rw [if_pos (by omega), show n + 1 - c.utf8Size = (String.ofList front).utf8ByteSize by
            omega, hinner]
          rfl

/-- A text cannot be cut behind some bytes exactly if none of its fronts has as many. -/
theorem cutAtByte?_eq_none_iff {n : Nat} {cs : List Char} :
    cutAtByte? n cs = none ↔
      ¬ ∃ front back, cs = front ++ back ∧ (String.ofList front).utf8ByteSize = n := by
  constructor
  · rintro h ⟨front, back, hcut⟩
    rw [cutAtByte?_eq_some_iff.2 hcut] at h
    cases h
  · intro h
    cases hcut : cutAtByte? n cs with
    | none => rfl
    | some parts => exact absurd ⟨parts.1, parts.2, cutAtByte?_eq_some_iff.1 hcut⟩ h

end Shorthand
