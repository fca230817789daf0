/-!
Patterns with groups. `Pattern.Matches` holds of every way in which a pattern can match a text, so
what it says of the texts in the groups does not depend on how a matcher searches.
-/

namespace Shorthand.Text

inductive Pattern where
  /-- These characters. -/
  | text (cs : List Char)
  /-- Characters of one class, at least `least` of them and at most `most` if that is given. -/
  | run (p : Char → Bool) (least : Nat) (most : Option Nat)
  | seq (a b : Pattern)
  | either (a b : Pattern)
  | optional (a : Pattern)
  /-- The text that `a` matches is kept. -/
  | group (a : Pattern)

namespace Pattern

def groups : Pattern → Nat
  | .text _ => 0
  | .run _ _ _ => 0
  | .seq a b => a.groups + b.groups
  | .either a b => a.groups + b.groups
  | .optional a => a.groups
  | .group a => a.groups + 1

/-- The whole text matches, and these texts are kept, the outer groups first. A group that has no
part in the match keeps none. -/
inductive Matches : Pattern → List Char → List (Option (List Char)) → Prop
  | text (cs : List Char) : Matches (.text cs) cs []
  | run {p : Char → Bool} {least : Nat} {most : Option Nat} {cs : List Char}
      (hcs : ∀ c ∈ cs, p c = true) (hleast : least ≤ cs.length)
      (hmost : ∀ n ∈ most, cs.length ≤ n) : Matches (.run p least most) cs []
  | seq {a b : Pattern} {x y : List Char} {ks ls : List (Option (List Char))}
      (ha : Matches a x ks) (hb : Matches b y ls) : Matches (.seq a b) (x ++ y) (ks ++ ls)
  | first {a b : Pattern} {x : List Char} {ks : List (Option (List Char))} (ha : Matches a x ks) :
      Matches (.either a b) x (ks ++ List.replicate b.groups none)
  | second {a b : Pattern} {x : List Char} {ks : List (Option (List Char))} (hb : Matches b x ks) :
      Matches (.either a b) x (List.replicate a.groups none ++ ks)
  | skip (a : Pattern) : Matches (.optional a) [] (List.replicate a.groups none)
  | take {a : Pattern} {x : List Char} {ks : List (Option (List Char))} (ha : Matches a x ks) :
      Matches (.optional a) x ks
  | group {a : Pattern} {x : List Char} {ks : List (Option (List Char))} (ha : Matches a x ks) :
      Matches (.group a) x (some x :: ks)

variable {a b : Pattern} {cs : List Char} {ks : List (Option (List Char))}

theorem matches_text_iff {text : List Char} :
    (Pattern.text text).Matches cs ks ↔ cs = text ∧ ks = [] := by
  constructor
  · rintro ⟨⟩
    exact ⟨rfl, rfl⟩
  · rintro ⟨rfl, rfl⟩
    exact .text cs

/-- A run matches texts of such characters that are neither too short nor too long. -/
theorem matches_run_iff {p : Char → Bool} {least : Nat} {most : Option Nat} :
    (run p least most).Matches cs ks ↔
      ((∀ c ∈ cs, p c = true) ∧ least ≤ cs.length ∧ ∀ n ∈ most, cs.length ≤ n) ∧ ks = [] := by
  constructor
  · intro h
    cases h with
    | run hcs hleast hmost => exact ⟨⟨hcs, hleast, hmost⟩, rfl⟩
  · rintro ⟨⟨hcs, hleast, hmost⟩, rfl⟩
    exact .run hcs hleast hmost

/-- Two patterns in a row match a text whose two parts they match. -/
theorem matches_seq_iff : (seq a b).Matches cs ks ↔ ∃ x y ls ms,
    a.Matches x ls ∧ b.Matches y ms ∧ cs = x ++ y ∧ ks = ls ++ ms := by
  constructor
  · intro h
    cases h with
    | seq ha hb => exact ⟨_, _, _, _, ha, hb, rfl, rfl⟩
  · rintro ⟨x, y, ls, ms, ha, hb, rfl, rfl⟩
    exact .seq ha hb

/-- Alternatives without groups keep nothing. -/
theorem matches_either_iff (ha : a.groups = 0) (hb : b.groups = 0) :
    (either a b).Matches cs ks ↔ a.Matches cs ks ∨ b.Matches cs ks := by
  constructor
  · intro h
    cases h with
    | first h =>
      rw [hb, List.replicate_zero, List.append_nil]
      exact Or.inl h
    | second h =>
      rw [ha, List.replicate_zero, List.nil_append]
      exact Or.inr h
  · rintro (h | h)
    · have hfirst : (either a b).Matches cs (ks ++ List.replicate b.groups none) := .first h
      rwa [hb, List.replicate_zero, List.append_nil] at hfirst
    · have hsecond : (either a b).Matches cs (List.replicate a.groups none ++ ks) := .second h
      rwa [ha, List.replicate_zero, List.nil_append] at hsecond

/-- An optional pattern matches the empty text as well, and keeps nothing then. -/
theorem matches_optional_iff : (optional a).Matches cs ks ↔
    cs = [] ∧ ks = List.replicate a.groups none ∨ a.Matches cs ks := by
  constructor
  · intro h
    cases h with
    | skip => exact Or.inl ⟨rfl, rfl⟩
    | take ha => exact Or.inr ha
  · rintro (⟨rfl, rfl⟩ | ha)
    · exact .skip a
    · exact .take ha

/-- A group matches what is in it and keeps the whole of it. -/
theorem matches_group_iff :
    (group a).Matches cs ks ↔ ∃ ls, a.Matches cs ls ∧ ks = some cs :: ls := by
  constructor
  · intro h
    cases h with
    | group ha => exact ⟨_, ha, rfl⟩
  · rintro ⟨ls, ha, rfl⟩
    exact .group ha

end Pattern

end Shorthand.Text
