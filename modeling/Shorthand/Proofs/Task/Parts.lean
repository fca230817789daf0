import Shorthand.Proofs.Text.Number
import Shorthand.Proofs.Text.Words
import Shorthand.Task

/-!
The two parts of a task's notation: its name and its minutes. `Task.nameAndMinutes?_eq_some_iff` and
`Task.ofParts?_eq_some_iff` say how they are found and what they become, and `Task.letters_nameOf`
that a name loses nothing but blanks and hyphens.
-/

namespace Shorthand

open Text

namespace Task

def letters (cs : List Char) : List Char := cs.filter fun c => !isBlank c && c != '-'

theorem letters_append (a b : List Char) : letters (a ++ b) = letters a ++ letters b :=
  List.filter_append ..

theorem letters_joinWith_space (ws : List (List Char)) :
    letters (joinWith [' '] ws) = letters ws.flatten := by
  have hspace : letters [' '] = [] := by decide
  induction ws with
  | nil => rfl
  | cons w ws ih =>
    cases ws with
    | nil => rw [joinWith_singleton, List.flatten_singleton]
    | cons v ws =>
      rw [joinWith_cons_cons, letters_append, letters_append, hspace, List.nil_append, ih,
        ← letters_append]
      rfl

/-- A name holds every character of the text it comes from that is no blank and no hyphen. -/
theorem letters_nameOf (cs : List Char) : letters (nameOf cs) = letters cs := by
  -- The words leave out blanks only, and a hyphen becomes a blank before them.
  have hblank : ∀ ds : List Char, letters (ds.filter (!isBlank ·)) = letters ds := by
    intro ds
    rw [letters, List.filter_filter, letters]
    congr 1
    funext c
    cases isBlank c <;> simp
  rw [nameOf, letters_joinWith_space, flatten_words, hblank]
  induction cs with
  | nil => rfl
  | cons c cs ih =>
    show letters ([if c = '-' then ' ' else c] ++ _) = letters ([c] ++ cs)
    rw [letters_append, ih, letters_append]
    by_cases hc : c = '-'
    · rw [hc]
      rfl
    · rw [if_neg hc]

/-- The task of a name and a run of digits has this name, with one blank between any two words. -/
theorem ofParts?_eq_some_iff {name minutes : List Char} {t : Task} :
    ofParts? name minutes = some t ↔ ∃ n, IsNumeral minutes n ∧ 0 < n ∧ n ≤ 4294967295 ∧
      nameOf name ≠ [] ∧ t = { name := String.ofList (nameOf name), minutes := n } := by
  have hbind : ofParts? name minutes = (readNatUpTo? maxNat32 minutes).bind fun n =>
      if n = 0 ∨ nameOf name = [] then none
      else some { name := String.ofList (nameOf name), minutes := n } := rfl
  simp only [hbind, Option.bind_eq_some_iff, readNatUpTo?_eq_some_iff, and_assoc]
  refine exists_congr fun n => and_congr_right fun _ => ?_
  constructor
  · rintro ⟨hle, h⟩
    split at h
    · cases h
    · rename_i hne
      obtain ⟨hpos, hname⟩ := not_or.1 hne
      exact ⟨Nat.pos_of_ne_zero hpos, hle, hname, (Option.some.inj h).symm⟩
  · rintro ⟨hpos, hle, hname, rfl⟩
    refine ⟨hle, if_neg ?_⟩
    rintro (rfl | h)
    · cases hpos
    · exact hname h

theorem isDigits_iff {cs : List Char} :
    isDigits cs = true ↔ cs ≠ [] ∧ ∀ c ∈ cs, isDecimal c = true := by
  simp [isDigits]

theorem isName_iff {cs : List Char} : isName cs = true ↔ cs ≠ [] ∧ '\n' ∉ cs := by
  simp [isName]

/-- A token is cut at the hyphen behind which digits alone stand. -/
theorem nameAndMinutes?_eq_some_iff {cs name minutes : List Char} :
    nameAndMinutes? cs = some (name, minutes) ↔
      cs = name ++ '-' :: minutes ∧ isName name = true ∧ isDigits minutes = true := by
  have hbind : nameAndMinutes? cs = (cutAtLast? '-' cs).bind fun p =>
      if isName p.1 && isDigits p.2 then some (p.1, p.2) else none := rfl
  rw [hbind, Option.bind_eq_some_iff]
  constructor
  · rintro ⟨⟨_, _⟩, hcut, h⟩
    split at h
    · rename_i hparts
      cases h
      exact ⟨(cutAtLast?_eq_some_iff.1 hcut).1, (Bool.and_eq_true _ _).mp hparts⟩
    · cases h
  · rintro ⟨hcs, hname, hminutes⟩
    -- A hyphen is no digit, so the hyphen in front of the digits is the last one.
    have hlast : '-' ∉ minutes := fun hmem =>
      absurd ((isDigits_iff.1 hminutes).2 '-' hmem) (by decide)
    refine ⟨(name, minutes), cutAtLast?_eq_some_iff.2 ⟨hcs, hlast⟩, ?_⟩
    simp [hname, hminutes]

/-! ## Tasks that are read -/

/-- A task has a name and some minutes, and its numbers fit unsigned 32-bit words. -/
structure WellFormed (t : Task) : Prop where
  name_ne : t.name ≠ ""
  minutes_pos : 0 < t.minutes
  minutes_le : t.minutes ≤ 4294967295
  order_le : ∀ n ∈ t.order, n ≤ 4294967295

theorem wellFormed_of_ofParts {name minutes : List Char} {t : Task}
    (h : ofParts? name minutes = some t) : t.WellFormed := by
  obtain ⟨n, -, hpos, hle, hname, rfl⟩ := ofParts?_eq_some_iff.1 h
  exact ⟨mt String.ofList_eq_empty_iff.1 hname, hpos, hle, nofun⟩

/-- Every task that is read is well formed. -/
theorem wellFormed_of_token {token : List Char} {t : Task} (h : read? token = some t) :
    t.WellFormed := by
  obtain ⟨⟨name, minutes⟩, -, h⟩ := Option.bind_eq_some_iff.1 h
  dsimp only at h
  split at h
  · rename_i order name' hordered
    obtain ⟨t, ht, rfl⟩ := Option.map_eq_some_iff.1 h
    have hwf := wellFormed_of_ofParts ht
    obtain ⟨⟨_, _⟩, -, hordered⟩ := Option.bind_eq_some_iff.1 hordered
    obtain ⟨n, hn, ⟨⟩⟩ := Option.bind_eq_some_iff.1 hordered
    refine ⟨hwf.name_ne, hwf.minutes_pos, hwf.minutes_le, ?_⟩
    rintro _ ⟨⟩
    exact (readNatUpTo?_eq_some_iff.1 hn).2
  · exact wellFormed_of_ofParts h

end Task

end Shorthand
