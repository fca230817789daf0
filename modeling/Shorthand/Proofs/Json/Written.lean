import Shorthand.Json.Read
import Shorthand.Proofs.Text.Number
import Shorthand.Proofs.Text.Run
import Shorthand.Proofs.Text.Words

/-!
The grammar of JSON texts, as far as it is used for writing. The main statement is
`Json.read?_of_written`: every text of the grammar is read as the value that it is written for.
-/

namespace Shorthand.Json

open Text

/-! ## Characters and strings -/

/-- Four digits of base sixteen are read back as their number. -/
theorem hexNumber?_hexDigits {n : Nat} (h : n < 65536) :
    hexNumber? (Nat.digitChar (n / 4096 % 16)) (Nat.digitChar (n / 256 % 16))
      (Nat.digitChar (n / 16 % 16)) (Nat.digitChar (n % 16)) = some n := by
  have hdigit : ∀ m, hexValue? (Nat.digitChar (m % 16)) = some (m % 16) :=
    fun m => hexValue?_digitChar (Nat.mod_lt m (by decide))
  unfold hexNumber?
  rw [hdigit, hdigit, hdigit, hdigit]
  show some (((n / 4096 % 16 * 16 + n / 256 % 16) * 16 + n / 16 % 16) * 16 + n % 16) = some n
  congr 1
  omega

/-- An escaped character is read as the character. -/
theorem readString?_escapeChar (c : Char) (cs : List Char) :
    readString? (escapeChar c ++ cs) = (readString? cs).map fun p => (c :: p.1, p.2) := by
  unfold escapeChar
  have hbind : ∀ {x : Char} {r : Option (List Char × List Char)},
      (r.bind fun p => some (x :: p.1, p.2)) = r.map fun p => (x :: p.1, p.2) := by
    intro x r
    cases r <;> rfl
  -- Behind the quote and the backslash come five more characters with short names.
  split
  · rename_i hquote
    rw [hquote]
    exact hbind
  rename_i hquote
  split
  · rename_i hback
    rw [hback]
    exact hbind
  rename_i hback
  iterate 5
    split
    · rename_i hshort
      rw [hshort]
      exact hbind
  split
  · rename_i hcontrol
    show readString? ('\\' :: 'u' :: _ :: _ :: _ :: _ :: cs) = _
    rw [readString?, hexNumber?_hexDigits (by omega)]
    show (if 0xD800 ≤ c.toNat ∧ c.toNat < 0xDC00 then _ else _) = _
    rw [if_neg (by omega), char?_toNat]
    exact hbind
  · rename_i hcontrol
    show readString? (c :: cs) = _
    rw [readString?.eq_def]
    split
    · cases ‹_ = _›
    · exact absurd (List.cons.inj ‹_ = _›).1 hquote
    · exact absurd (List.cons.inj ‹_ = _›).1 hback
    · exact absurd (List.cons.inj ‹_ = _›).1 hback
    · exact absurd (List.cons.inj ‹_ = _›).1 hback
    · obtain ⟨rfl, rfl⟩ := List.cons.inj ‹_ = _›
      rw [if_neg hcontrol]
      exact hbind

/-- Any text is read back from its escaped characters, up to the closing quote. -/
theorem readString?_escaped (s rest : List Char) :
    readString? (s.flatMap escapeChar ++ '"' :: rest) = some (s, rest) := by
  induction s with
  | nil => rfl
  | cons c s ih =>
    rw [List.flatMap_cons, List.append_assoc, readString?_escapeChar, ih]
    rfl

/-! ## Numbers -/

/-- Nothing at the front of the text could go on with a number. -/
def EndsNumber (rest : List Char) : Prop :=
  ∀ c ∈ rest.head?, c.isDigit = false ∧ c ≠ '.' ∧ c ≠ 'e' ∧ c ≠ 'E'

theorem readUnsigned?_digits (negative : Bool) (n : Nat) {rest : List Char}
    (hrest : EndsNumber rest) :
    readUnsigned? negative (digits n ++ rest) = some ({ negative, whole := digits n }, rest) := by
  have hdigit : ∀ c ∈ digits n, c.isDigit = true := fun c => isDigit_of_mem_digits
  have hstop : ∀ c ∈ rest.head?, c.isDigit = false := fun c hc => (hrest c hc).1
  have hzero : ¬ (digits n = [] ∨ (digits n).head? = some '0' ∧ 1 < (digits n).length) := by
    rintro (hnil | ⟨hhead, hlength⟩)
    · exact digits_ne_nil n hnil
    · rw [head?_digits hhead] at hlength
      exact absurd hlength (by decide)
  have hfraction : readFraction? rest = some ([], rest) := by
    unfold readFraction?
    split
    · exact absurd rfl (hrest '.' rfl).2.1
    · rfl
  unfold readUnsigned?
  dsimp only
  rw [takeWhile_run hdigit hstop, dropWhile_run hdigit hstop, if_neg hzero, hfraction]
  cases rest with
  | nil => rfl
  | cons e after =>
    obtain ⟨-, -, he, hE⟩ := hrest e rfl
    show (if e = 'e' ∨ e = 'E' then _ else _) = _
    rw [if_neg (not_or.2 ⟨he, hE⟩)]

/-- A whole number is read back, if what follows cannot go on with it. -/
theorem readNumber?_ofInt (i : Int) {rest : List Char} (hrest : EndsNumber rest) :
    readNumber? ((Numeral.ofInt i).toChars ++ rest) = some (Numeral.ofInt i, rest) := by
  cases i with
  | ofNat n =>
    have hchars : (Numeral.ofInt (.ofNat n)).toChars = digits n := by
      show [] ++ digits n ++ [] ++ [] = digits n
      rw [List.append_nil, List.append_nil, List.nil_append]
    rw [hchars]
    unfold readNumber?
    split
    · rename_i hhead
      -- No digit is a minus sign.
      obtain ⟨d, ds, hdigits⟩ := List.exists_cons_of_ne_nil (digits_ne_nil n)
      rw [hdigits] at hhead
      obtain rfl : d = '-' := (List.cons.inj hhead).1
      exact absurd (isDigit_of_mem_digits (hdigits ▸ List.mem_cons_self)) (by decide)
    · exact readUnsigned?_digits false n hrest
  | negSucc n =>
    have hchars : (Numeral.ofInt (.negSucc n)).toChars = '-' :: digits (n + 1) := by
      show ['-'] ++ digits (n + 1) ++ [] ++ [] = '-' :: digits (n + 1)
      rw [List.append_nil, List.append_nil, List.singleton_append]
    rw [hchars]
    exact readUnsigned?_digits true (n + 1) hrest

/-! ## The grammar -/

structure FieldText where
  gap : List Char
  key : String
  value : Json
  text : List Char

def FieldText.chars (f : FieldText) : List Char := f.gap ++ (quoted f.key ++ ':' :: f.text)

def FieldText.field (f : FieldText) : String × Json := (f.key, f.value)

/-- The text is written for the value. Blanks may stand in front of each value and each key and
before the end of an array or an object; numbers are whole. -/
inductive Written : Json → List Char → Prop
  | null : Written .null ['n', 'u', 'l', 'l']
  | yes : Written (.bool true) ['t', 'r', 'u', 'e']
  | no : Written (.bool false) ['f', 'a', 'l', 's', 'e']
  | int (i : Int) : Written (int i) (Numeral.ofInt i).toChars
  | string (s : String) : Written (.string s) (quoted s)
  | array (parts : List (Json × List Char)) {gap : List Char}
      (hgap : ∀ c ∈ gap, isSpace c = true) (h : ∀ p ∈ parts, Written p.1 p.2) :
      Written (.array (parts.map (·.1))) ('[' :: (joinWith [','] (parts.map (·.2)) ++
        (gap ++ [']'])))
  | object (parts : List FieldText) {gap : List Char} (hgap : ∀ c ∈ gap, isSpace c = true)
      (hgaps : ∀ f ∈ parts, ∀ c ∈ f.gap, isSpace c = true)
      (h : ∀ f ∈ parts, Written f.value f.text) :
      Written (.object (parts.map FieldText.field))
        ('\x7b' :: (joinWith [','] (parts.map FieldText.chars) ++ (gap ++ ['\x7d'])))
  | space {v : Json} {c : Char} {cs : List Char} (hc : isSpace c = true) (h : Written v cs) :
      Written v (c :: cs)

section Blanks

variable {gap cs rest : List Char} {c : Char}

theorem skip_cons_space (hc : isSpace c = true) (cs : List Char) : skip (c :: cs) = skip cs :=
  List.dropWhile_cons_of_pos hc

theorem skip_gap_append (hgap : ∀ c ∈ gap, isSpace c = true) (hc : isSpace c = false) :
    skip (gap ++ c :: rest) = c :: rest := by
  refine dropWhile_run hgap ?_
  rintro _ ⟨⟩
  exact hc

theorem skip_of_not_space (hc : isSpace c = false) : skip (c :: rest) = c :: rest :=
  List.dropWhile_cons_of_neg (by simp [hc])

theorem skip_append {front : List Char} (h : skip cs = c :: front) (rest : List Char) :
    skip (cs ++ rest) = c :: (front ++ rest) := by
  unfold skip at h ⊢
  rw [List.dropWhile_append, h]
  rfl

theorem skip_skip (cs : List Char) : skip (skip cs) = skip cs := by
  cases hskip : skip cs with
  | nil => rfl
  | cons c rest =>
    have hc : isSpace c = false :=
      not_of_mem_head?_dropWhile (by rw [show cs.dropWhile isSpace = _ from hskip]; rfl)
    exact skip_of_not_space hc

theorem endsNumber_of_mem (hc : isSpace c = true ∨ c ∈ [',', ']', '\x7d']) :
    EndsNumber (c :: rest) := by
  rintro _ ⟨⟩
  rcases hc with hspace | hmark
  · simp only [isSpace, Bool.or_eq_true, decide_eq_true_eq] at hspace
    rcases hspace with ((rfl | rfl) | rfl) | rfl <;> decide
  · simp only [List.mem_cons, List.not_mem_nil, or_false] at hmark
    rcases hmark with rfl | rfl | rfl <;> decide

theorem endsNumber_gap (hgap : ∀ c ∈ gap, isSpace c = true) (hc : c ∈ [',', ']', '\x7d']) :
    EndsNumber (gap ++ c :: rest) := by
  cases gap with
  | nil => exact endsNumber_of_mem (Or.inr hc)
  | cons d gap => exact endsNumber_of_mem (Or.inl (hgap d List.mem_cons_self))

end Blanks

/-- A whole number starts with a digit or with a minus sign. -/
theorem exists_head_ofInt (i : Int) :
    ∃ c cs, (Numeral.ofInt i).toChars = c :: cs ∧ (c.isDigit = true ∨ c = '-') := by
  cases i with
  | ofNat n =>
    obtain ⟨d, ds, hds⟩ := List.exists_cons_of_ne_nil (digits_ne_nil n)
    refine ⟨d, ds, ?_, Or.inl (isDigit_of_mem_digits (hds ▸ List.mem_cons_self))⟩
    simp [Numeral.toChars, Numeral.ofInt, hds]
  | negSucc n => exact ⟨_, _, rfl, Or.inr rfl⟩

theorem not_isSpace_of_number {c : Char} (hc : c.isDigit = true ∨ c = '-') :
    isSpace c = false := by
  rw [Bool.eq_false_iff]
  intro hspace
  simp only [isSpace, Bool.or_eq_true, decide_eq_true_eq] at hspace
  rcases hspace with ((rfl | rfl) | rfl) | rfl <;> exact absurd hc (by decide)

/-- A text of a value has a character that is no blank, and the first one does not end an array. -/
theorem Written.exists_head {v : Json} {cs : List Char} (h : Written v cs) :
    ∃ c rest, skip cs = c :: rest ∧ c ≠ ']' := by
  induction h with
  | null => exact ⟨_, _, rfl, by decide⟩
  | yes => exact ⟨_, _, rfl, by decide⟩
  | no => exact ⟨_, _, rfl, by decide⟩
  | int i =>
    obtain ⟨c, cs, hcs, hc⟩ := exists_head_ofInt i
    refine ⟨c, cs, ?_, ?_⟩
    · rw [hcs, skip_of_not_space (not_isSpace_of_number hc)]
    · rintro rfl
      exact absurd hc (by decide)
  | string s => exact ⟨_, _, rfl, by decide⟩
  | array => exact ⟨_, _, rfl, by decide⟩
  | object => exact ⟨_, _, rfl, by decide⟩
  | space hc _ ih => rwa [skip_cons_space hc]

/-! ## Reading -/

theorem readValue?_skip (fuel : Nat) (cs : List Char) :
    readValue? fuel (skip cs) = readValue? fuel cs := by
  cases fuel with
  | zero => rfl
  | succ fuel =>
    rw [readValue?.eq_def, readValue?.eq_def]
    simp only [skip_skip]

/-- The value is read from the front of the text, with fuel for its length. -/
def Accepted (v : Json) (cs : List Char) : Prop :=
  ∀ fuel rest, 2 * cs.length ≤ fuel → EndsNumber rest →
    readValue? fuel (cs ++ rest) = some (v, rest)

theorem Accepted.space {v : Json} {c : Char} {cs : List Char} (hc : isSpace c = true)
    (h : Accepted v cs) : Accepted v (c :: cs) := by
  intro fuel rest hfuel hrest
  rw [List.length_cons] at hfuel
  rw [List.cons_append, ← readValue?_skip, skip_cons_space hc, readValue?_skip,
    h fuel rest (by omega) hrest]

theorem readItems?_skip (fuel : Nat) (cs : List Char) :
    readItems? fuel (skip cs) = readItems? fuel cs := by
  cases fuel with
  | zero => rfl
  | succ fuel => rw [readItems?.eq_def, readItems?.eq_def]; simp only [readValue?_skip]

theorem readFields?_skip (fuel : Nat) (cs : List Char) :
    readFields? fuel (skip cs) = readFields? fuel cs := by
  cases fuel with
  | zero => rfl
  | succ fuel => rw [readFields?.eq_def, readFields?.eq_def]; simp only [skip_skip]

section Parts

variable {fuel : Nat} {cs rest after tail : List Char} {v : Json}

theorem readItems?_last (hvalue : readValue? fuel cs = some (v, rest))
    (hend : skip rest = ']' :: tail) : readItems? (fuel + 1) cs = some ([v], tail) := by
  simp [readItems?, hvalue, hend]

theorem readItems?_more {items : List Json} (hvalue : readValue? fuel cs = some (v, rest))
    (hmore : skip rest = ',' :: after) (hitems : readItems? fuel after = some (items, tail)) :
    readItems? (fuel + 1) cs = some (v :: items, tail) := by
  simp [readItems?, hvalue, hmore, hitems]

theorem readFields?_last {key : String}
    (hkey : skip cs = quoted key ++ ':' :: rest) (hvalue : readValue? fuel rest = some (v, after))
    (hend : skip after = '\x7d' :: tail) :
    readFields? (fuel + 1) cs = some ([(key, v)], tail) := by
  simp [readFields?, hkey, quoted, readString?_escaped, skip_of_not_space, isSpace, hvalue, hend]

theorem readFields?_more {key : String} {fields : List (String × Json)} {more : List Char}
    (hkey : skip cs = quoted key ++ ':' :: rest) (hvalue : readValue? fuel rest = some (v, after))
    (hmore : skip after = ',' :: more) (hfields : readFields? fuel more = some (fields, tail)) :
    readFields? (fuel + 1) cs = some ((key, v) :: fields, tail) := by
  simp [readFields?, hkey, quoted, readString?_escaped, skip_of_not_space, isSpace, hvalue, hmore,
    hfields]

/-- Items that are accepted one by one are accepted as those of an array. -/
theorem readItems?_of_accepted (p : Json × List Char) (ps : List (Json × List Char))
    {gap : List Char} (hgap : ∀ c ∈ gap, isSpace c = true)
    (h : ∀ q ∈ p :: ps, Accepted q.1 q.2)
    (hfuel : 2 * (joinWith [','] ((p :: ps).map (·.2))).length + 1 ≤ fuel) :
    readItems? fuel (joinWith [','] ((p :: ps).map (·.2)) ++ (gap ++ ']' :: rest)) =
      some ((p :: ps).map (·.1), rest) := by
  obtain ⟨fuel, rfl⟩ := Nat.exists_eq_add_of_le' (Nat.le_of_add_left_le hfuel)
  obtain ⟨hp, hps⟩ := List.forall_mem_cons.1 h
  induction ps generalizing p fuel with
  | nil =>
    rw [List.map_singleton, joinWith_singleton] at hfuel ⊢
    exact readItems?_last (hp _ _ (by omega) (endsNumber_gap hgap (by decide)))
      (skip_gap_append hgap (by decide))
  | cons q qs ih =>
    rw [List.map_cons, List.map_cons, joinWith_cons_cons] at hfuel ⊢
    simp only [List.length_append, List.length_singleton] at hfuel
    rw [List.append_assoc, List.append_assoc]
    have hsep := hp fuel ([','] ++ (joinWith [','] ((q :: qs).map (·.2)) ++ (gap ++ ']' :: rest)))
      (by omega) (endsNumber_of_mem (Or.inr (by decide)))
    -- One unit of fuel was spent on the first item; the comma pays for the next.
    obtain ⟨fuel, rfl⟩ := Nat.exists_eq_add_of_le' (show 1 ≤ fuel by omega)
    obtain ⟨hq, hqs⟩ := List.forall_mem_cons.1 hps
    exact readItems?_more hsep (skip_of_not_space (by decide))
      (ih q hps fuel (by rw [List.map_cons]; omega) hq hqs)

/-- The key stands behind its blanks, the text of the value behind the key. -/
theorem FieldText.skip_chars {f : FieldText} (hgap : ∀ c ∈ f.gap, isSpace c = true)
    (rest : List Char) : skip (f.chars ++ rest) = quoted f.key ++ ':' :: (f.text ++ rest) := by
  rw [FieldText.chars, List.append_assoc, List.append_assoc]
  exact skip_gap_append hgap (by decide)

theorem FieldText.length_text_le (f : FieldText) : f.text.length ≤ f.chars.length := by
  simp only [FieldText.chars, List.length_append, List.length_cons]
  omega

/-- Fields whose values are accepted one by one are accepted as those of an object. -/
theorem readFields?_of_accepted (f : FieldText) (fs : List FieldText)
    {gap : List Char} (hgap : ∀ c ∈ gap, isSpace c = true)
    (hgaps : ∀ g ∈ f :: fs, ∀ c ∈ g.gap, isSpace c = true)
    (h : ∀ g ∈ f :: fs, Accepted g.value g.text)
    (hfuel : 2 * (joinWith [','] ((f :: fs).map FieldText.chars)).length + 1 ≤ fuel) :
    readFields? fuel (joinWith [','] ((f :: fs).map FieldText.chars) ++ (gap ++ '\x7d' :: rest)) =
      some ((f :: fs).map FieldText.field, rest) := by
  have hlength := f.length_text_le
  obtain ⟨fuel, rfl⟩ := Nat.exists_eq_add_of_le' (Nat.le_of_add_left_le hfuel)
  obtain ⟨hf, hfs⟩ := List.forall_mem_cons.1 h
  obtain ⟨hfgap, hfsgaps⟩ := List.forall_mem_cons.1 hgaps
  -- By induction on the fields behind the first: each takes one from the fuel and a comma from the
  -- text.
  induction fs generalizing f fuel with
  | nil =>
    rw [List.map_singleton, joinWith_singleton] at hfuel ⊢
    exact readFields?_last (FieldText.skip_chars hfgap _)
      (hf _ _ (by omega) (endsNumber_gap hgap (by decide))) (skip_gap_append hgap (by decide))
  | cons g gs ih =>
    rw [List.map_cons, List.map_cons, joinWith_cons_cons] at hfuel ⊢
    simp only [List.length_append, List.length_singleton] at hfuel
    rw [List.append_assoc, List.append_assoc]
    have hsep := hf fuel
      ([','] ++ (joinWith [','] ((g :: gs).map FieldText.chars) ++ (gap ++ '\x7d' :: rest)))
      (by omega) (endsNumber_of_mem (Or.inr (by decide)))
    obtain ⟨fuel, rfl⟩ := Nat.exists_eq_add_of_le' (show 1 ≤ fuel by omega)
    obtain ⟨hg, hgs⟩ := List.forall_mem_cons.1 hfs
    obtain ⟨hggap, hgsgaps⟩ := List.forall_mem_cons.1 hfsgaps
    exact readFields?_more (FieldText.skip_chars hfgap _) hsep (skip_of_not_space (by decide))
      (ih g hfsgaps hfs g.length_text_le fuel (by rw [List.map_cons]; omega) hg hgs hggap hgsgaps)

end Parts

section Values

variable {fuel : Nat} {cs tail : List Char}

theorem readValue?_number {c : Char} {n : Numeral} (hc : c.isDigit = true ∨ c = '-')
    (h : readNumber? (c :: cs) = some (n, tail)) :
    readValue? (fuel + 1) (c :: cs) = some (.number n, tail) := by
  rw [readValue?, skip_of_not_space (not_isSpace_of_number hc)]
  split
  -- Six kinds of value start with a character of their own.
  iterate 6
    obtain ⟨rfl, -⟩ := List.cons.inj ‹_ = _›
    exact absurd hc (by decide)
  rw [h]
  rfl

theorem readValue?_array_empty (h : skip cs = ']' :: tail) :
    readValue? (fuel + 1) ('[' :: cs) = some (.array [], tail) := by
  simp [readValue?, skip_of_not_space, isSpace, h]

theorem readValue?_array {items : List Json} {c : Char} {rest : List Char}
    (hhead : skip cs = c :: rest) (hc : c ≠ ']') (h : readItems? fuel cs = some (items, tail)) :
    readValue? (fuel + 1) ('[' :: cs) = some (.array items, tail) := by
  have hitems : readItems? fuel (c :: rest) = some (items, tail) := by
    rw [← hhead, readItems?_skip, h]
  simp [readValue?, skip_of_not_space, isSpace, hhead, hc, hitems]

theorem readValue?_object_empty (h : skip cs = '\x7d' :: tail) :
    readValue? (fuel + 1) ('\x7b' :: cs) = some (.object [], tail) := by
  simp [readValue?, skip_of_not_space, isSpace, h]

theorem readValue?_object {fields : List (String × Json)} {rest : List Char}
    (hhead : skip cs = '"' :: rest) (h : readFields? fuel cs = some (fields, tail)) :
    readValue? (fuel + 1) ('\x7b' :: cs) = some (.object fields, tail) := by
  have hfields : readFields? fuel ('"' :: rest) = some (fields, tail) := by
    rw [← hhead, readFields?_skip, h]
  simp [readValue?, skip_of_not_space, isSpace, hhead, hfields]

end Values

theorem accepted_of_cons {v : Json} {c : Char} {cs : List Char}
    (h : ∀ fuel rest, 2 * cs.length < fuel → EndsNumber rest →
      readValue? (fuel + 1) (c :: (cs ++ rest)) = some (v, rest)) : Accepted v (c :: cs) := by
  intro fuel rest hfuel hrest
  rw [List.length_cons] at hfuel
  obtain ⟨fuel, rfl⟩ := Nat.exists_eq_add_of_le' (show 1 ≤ fuel by omega)
  exact h fuel rest (by omega) hrest

/-- Every string is accepted as it is written. -/
theorem accepted_string (s : String) : Accepted (.string s) (quoted s) := by
  apply accepted_of_cons
  intro fuel rest _ _
  rw [readValue?, skip_of_not_space (by decide)]
  show (readString? (s.toList.flatMap escapeChar ++ ['"'] ++ rest)).bind _ = _
  rw [List.append_assoc, List.singleton_append, readString?_escaped]
  show some (Json.string (String.ofList s.toList), rest) = _
  rw [String.ofList_toList]

theorem accepted_int (i : Int) : Accepted (int i) (Numeral.ofInt i).toChars := by
  obtain ⟨c, cs, hcs, hc⟩ := exists_head_ofInt i
  rw [hcs]
  apply accepted_of_cons
  intro fuel rest _ hrest
  have hnumber := readNumber?_ofInt i hrest
  rw [hcs] at hnumber
  exact readValue?_number hc hnumber

theorem accepted_array {parts : List (Json × List Char)} {gap : List Char}
    (hgap : ∀ c ∈ gap, isSpace c = true) (hwritten : ∀ p ∈ parts, Written p.1 p.2)
    (h : ∀ p ∈ parts, Accepted p.1 p.2) :
    Accepted (.array (parts.map (·.1)))
      ('[' :: (joinWith [','] (parts.map (·.2)) ++ (gap ++ [']']))) := by
  apply accepted_of_cons
  intro fuel rest hfuel hrest
  simp only [List.length_append] at hfuel
  rw [List.append_assoc, List.append_assoc, List.singleton_append]
  cases parts with
  | nil => exact readValue?_array_empty (skip_gap_append hgap (by decide))
  | cons p ps =>
    obtain ⟨c, x, hhead, hc⟩ := (hwritten p List.mem_cons_self).exists_head
    obtain ⟨y, hy⟩ := exists_joinWith_cons [','] p.2 (ps.map (·.2))
    have htext : skip (joinWith [','] ((p :: ps).map (·.2)) ++ (gap ++ ']' :: rest)) =
        c :: (x ++ (y ++ (gap ++ ']' :: rest))) := by
      rw [List.map_cons, hy, List.append_assoc, skip_append hhead]
    exact readValue?_array htext hc (readItems?_of_accepted p ps hgap h (by omega))

theorem accepted_object {parts : List FieldText} {gap : List Char}
    (hgap : ∀ c ∈ gap, isSpace c = true) (hgaps : ∀ f ∈ parts, ∀ c ∈ f.gap, isSpace c = true)
    (h : ∀ f ∈ parts, Accepted f.value f.text) :
    Accepted (.object (parts.map FieldText.field))
      ('\x7b' :: (joinWith [','] (parts.map FieldText.chars) ++ (gap ++ ['\x7d']))) := by
  apply accepted_of_cons
  intro fuel rest hfuel hrest
  simp only [List.length_append] at hfuel
  rw [List.append_assoc, List.append_assoc, List.singleton_append]
  cases parts with
  | nil => exact readValue?_object_empty (skip_gap_append hgap (by decide))
  | cons f fs =>
    obtain ⟨y, hy⟩ := exists_joinWith_cons [','] f.chars (fs.map FieldText.chars)
    have htext : skip (joinWith [','] ((f :: fs).map FieldText.chars) ++ (gap ++ '\x7d' :: rest)) =
        quoted f.key ++ ':' :: (f.text ++ (y ++ (gap ++ '\x7d' :: rest))) := by
      rw [List.map_cons, hy, List.append_assoc]
      exact FieldText.skip_chars (hgaps f List.mem_cons_self) _
    exact readValue?_object htext (readFields?_of_accepted f fs hgap hgaps h (by omega))

/-- Every text of the grammar is read as its value, whatever stands behind it. -/
theorem Written.accepted {v : Json} {cs : List Char} (h : Written v cs) : Accepted v cs := by
  induction h with
  | null => exact accepted_of_cons fun _ _ _ _ => rfl
  | yes => exact accepted_of_cons fun _ _ _ _ => rfl
  | no => exact accepted_of_cons fun _ _ _ _ => rfl
  | int i => exact accepted_int i
  | string s => exact accepted_string s
  | array parts hgap h ih => exact accepted_array hgap h ih
  | object parts hgap hgaps _ ih => exact accepted_object hgap hgaps ih
  | space hc _ ih => exact ih.space hc

/-- Every text of the grammar is read as the value that it is written for. -/
theorem read?_of_written {v : Json} {text : String} (h : Written v text.toList) :
    read? text = some v := by
  have hread := h.accepted (2 * text.toList.length + 2) [] (by omega) (by simp [EndsNumber])
  rw [List.append_nil] at hread
  unfold read?
  dsimp only
  rw [hread]
  rfl

end Shorthand.Json
