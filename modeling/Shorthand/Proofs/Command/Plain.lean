import Shorthand.Command.Read
import Shorthand.Proofs.Slot.Spelling
import Shorthand.Proofs.Task.Parts

/-!
Lines that no keyword claims. Such a line is one task, and `PlainTask.text_kept` says that the name
and the minutes of the task hold all of its text but blanks and hyphens.
-/

namespace Shorthand

open Text

/-- The text, which is one line, is `front`, a hyphen and the digits of `n`, and makes a task: there
is a name in front and the minutes fit an unsigned 32-bit word. -/
def EndsInMinutes (text front : List Char) (n : Nat) : Prop :=
  '\n' ∉ text ∧ (∃ digits, text = front ++ '-' :: digits ∧ IsNumeral digits n) ∧
    0 < n ∧ n ≤ 4294967295 ∧ Task.nameOf front ≠ []

/-- The task that a line is: the text in front of its minutes by name, with hyphens read as blanks,
or else the whole line by name for the default number of minutes. -/
inductive PlainTask (defaults : LineDefaults) (text : List Char) : Task → Prop
  | timed {front : List Char} {n : Nat} (h : EndsInMinutes text front n) : PlainTask defaults text
      { name := String.ofList (Task.nameOf front), minutes := n, order := none }
  | whole (h : ∀ front n, ¬ EndsInMinutes text front n) : PlainTask defaults text
      { name := String.ofList text, minutes := max defaults.taskMinutes.toNat 1, order := none }

namespace Command

/-- A line is cut into a task exactly if it ends in the minutes of one. -/
theorem parts_eq_some_iff {text : List Char} {t : Task} :
    ((Task.nameAndMinutes? text).bind fun p => Task.ofParts? p.1 p.2) = some t ↔
      ∃ front n, EndsInMinutes text front n ∧
        t = { name := String.ofList (Task.nameOf front), minutes := n, order := none } := by
  rw [Option.bind_eq_some_iff]
  constructor
  · rintro ⟨⟨front, digits⟩, hparts, ht⟩
    obtain ⟨rfl, hname, hdigits⟩ := Task.nameAndMinutes?_eq_some_iff.1 hparts
    obtain ⟨n, hn, hpos, hle, hne, rfl⟩ := Task.ofParts?_eq_some_iff.1 ht
    refine ⟨front, n, ⟨?_, ⟨digits, rfl, hn⟩, hpos, hle, hne⟩, rfl⟩
    intro hmem
    rcases List.mem_append.1 hmem with hmem | hmem
    · exact (Task.isName_iff.1 hname).2 hmem
    · rcases List.mem_cons.1 hmem with hmem | hmem
      · cases hmem
      · exact absurd (hn.isDecimal '\n' hmem) (by decide)
  · rintro ⟨front, n, ⟨hline, ⟨digits, rfl, hn⟩, hpos, hle, hne⟩, rfl⟩
    have hfront : front ≠ [] := by
      rintro rfl
      exact hne rfl
    have hname : Task.isName front = true :=
      Task.isName_iff.2 ⟨hfront, fun hmem => hline (List.mem_append_left _ hmem)⟩
    have hdigits : Task.isDigits digits = true := Task.isDigits_iff.2 ⟨hn.ne_nil, hn.isDecimal⟩
    exact ⟨(front, digits), Task.nameAndMinutes?_eq_some_iff.2 ⟨rfl, hname, hdigits⟩,
      Task.ofParts?_eq_some_iff.2 ⟨n, hn, hpos, hle, hne, rfl⟩⟩

/-- A plain line is always one task. -/
theorem exists_plainTask (defaults : LineDefaults) (text : List Char) :
    ∃ t, ofPlain defaults text = ofTask t ∧ PlainTask defaults text t := by
  unfold ofPlain
  cases hparts : (Task.nameAndMinutes? text).bind fun p => Task.ofParts? p.1 p.2 with
  | some t =>
    obtain ⟨front, n, h, rfl⟩ := parts_eq_some_iff.1 hparts
    exact ⟨_, rfl, .timed h⟩
  | none =>
    refine ⟨_, rfl, .whole fun front n h => ?_⟩
    have hsome := parts_eq_some_iff.2 ⟨front, n, h, rfl⟩
    rw [hparts] at hsome
    cases hsome

end Command

end Shorthand
