import Shorthand.Proofs.Command.Keyword
import Shorthand.Proofs.Command.Plain
import Shorthand.Proofs.Command.Rules
import Shorthand.Proofs.Slot.Clock

/-!
The kind of a command. Each kind has its claim on the first two words of a line, no two kinds claim
the same line, and a line that none claims is a task; nothing behind the second word counts.
-/

namespace Shorthand

open Text

/-! ## Claims -/

/-- What `name`, the first word of a line in lower case, and `next`, its second word if there is
one, have to be for a command of this kind. -/
def Claims (now : ClockReading) (name : List Char) (next : Option (List Char)) : CommandKind → Prop
  | .block => String.ofList name ∈ ["blk", "block"] ∨
      String.ofList name ∈ ["deep", "admin", "break", "exercise", "personal"] ∧
        StandsAlone now next
  | .event => String.ofList name ∈ ["evt", "event"] ∨
      String.ofList name ∈ ["meeting", "standup", "call", "review"] ∧ StandsAlone now next
  | .routine => String.ofList name ∈ ["rtn", "routine"]
  | .task => String.ofList name ∈ ["tsk", "task"]
  | .batch => String.ofList name = "batch"
  | .template => String.ofList name ∈ ["tmpl", "template"]
  | .assistant => String.ofList name = "ai" ∨ name.head? = some '/'
  | .quick => String.ofList name ∈ ["now", "next", "clear", "undo"] ∨
      ['n', 'o', 'w', '+'] <+: name ∧ Resolves now name

def Keyword.kind : Keyword → CommandKind
  | .block => .block
  | .blockWord _ => .block
  | .event => .event
  | .eventWord _ => .event
  | .routine => .routine
  | .task => .task
  | .batch => .batch
  | .template => .template
  | .assistant => .assistant
  | .quick _ => .quick

section Claims

variable {now : ClockReading} {name : List Char} {next : Option (List Char)} {kind : CommandKind}

theorem claims_of_keyword {k : Keyword} (hk : Keyword.ofName? (String.ofList name) = some k)
    (hclaims : k.isEverydayWord = true → StandsAlone now next) : Claims now name next k.kind := by
  have hname := Keyword.ofName?_eq_some_iff.1 hk
  cases k with
  | blockWord kind => exact Or.inr ⟨Keyword.exists_blockWord_iff.1 ⟨kind, hk⟩, hclaims rfl⟩
  | eventWord kind => exact Or.inr ⟨Keyword.exists_eventWord_iff.1 ⟨kind, hk⟩, hclaims rfl⟩
  | quick action => exact Or.inl (Keyword.exists_quick_iff.1 ⟨action, hk⟩)
  | block => exact Or.inl hname
  | event => exact Or.inl hname
  | assistant => exact Or.inl (List.mem_singleton.1 hname)
  | batch => exact List.mem_singleton.1 hname
  | routine => exact hname
  | task => exact hname
  | template => exact hname

/-- A kind claims a line through a keyword, a slash or a length behind `now+`. -/
theorem Claims.cases (h : Claims now name next kind) :
    (∃ k, Keyword.ofName? (String.ofList name) = some k ∧
      (k.isEverydayWord = true → StandsAlone now next) ∧ k.kind = kind) ∨
    (name.head? = some '/' ∧ kind = .assistant) ∨
    (['n', 'o', 'w', '+'] <+: name ∧ Resolves now name ∧ kind = .quick) := by
  -- A keyword that is no everyday word claims the line whatever follows it.
  have hkeyword : ∀ k : Keyword, String.ofList name ∈ k.names → k.isEverydayWord = false →
      ∃ l, Keyword.ofName? (String.ofList name) = some l ∧
        (l.isEverydayWord = true → StandsAlone now next) ∧ l.kind = k.kind := by
    intro k hname hk
    refine ⟨k, Keyword.ofName?_eq_some_iff.2 hname, fun heveryday => ?_, rfl⟩
    rw [hk] at heveryday
    cases heveryday
  cases kind with
  | block =>
    rcases h with hname | ⟨hname, hnext⟩
    · exact Or.inl (hkeyword .block hname rfl)
    · obtain ⟨kind, hk⟩ := Keyword.exists_blockWord_iff.2 hname
      exact Or.inl ⟨_, hk, fun _ => hnext, rfl⟩
  | event =>
    rcases h with hname | ⟨hname, hnext⟩
    · exact Or.inl (hkeyword .event hname rfl)
    · obtain ⟨kind, hk⟩ := Keyword.exists_eventWord_iff.2 hname
      exact Or.inl ⟨_, hk, fun _ => hnext, rfl⟩
  | quick =>
    rcases h with hname | ⟨hplus, htime⟩
    · obtain ⟨action, hk⟩ := Keyword.exists_quick_iff.2 hname
      exact Or.inl ⟨_, hk, nofun, rfl⟩
    · exact Or.inr (Or.inr ⟨hplus, htime, rfl⟩)
  | assistant =>
    rcases h with hname | hslash
    · exact Or.inl (hkeyword .assistant (List.mem_singleton.2 hname) rfl)
    · exact Or.inr (Or.inl ⟨hslash, rfl⟩)
  | routine => exact Or.inl (hkeyword .routine h rfl)
  | task => exact Or.inl (hkeyword .task h rfl)
  | batch => exact Or.inl (hkeyword .batch (List.mem_singleton.2 h) rfl)
  | template => exact Or.inl (hkeyword .template h rfl)

end Claims

/-! ## The kind of a head -/

theorem Keyword.kind_head (k : Keyword) (after : List Char) (rest : List (List Char)) :
    (k.head after rest).kind = k.kind := by
  unfold Keyword.head
  cases k with
  | block => cases rest with
    | nil => rfl
    | cons word more => dsimp only; cases BlockKind.ofWord? word <;> rfl
  | event => cases rest with
    | nil => rfl
    | cons word more => dsimp only; cases EventKind.ofWord? word <;> rfl
  | quick action => cases action <;> rfl
  | _ => rfl

namespace Head

variable {now : ClockReading} {text first : List Char} {rest : List (List Char)} {head : Head}

/-- Nothing claims a line that is read as a plain one. -/
theorem Reads.unclaimed {plain : List Char} (h : Reads now text first rest (.plain plain)) :
    ∀ kind, ¬ Claims now (lower first) rest.head? kind := by
  generalize hplain : Head.plain plain = head at h
  cases h with
  | plain hplus hslash hk =>
    intro kind hkind
    rcases hkind.cases with ⟨k, hname, hnext, -⟩ | ⟨hslash', -⟩ | ⟨hplus', htime, -⟩
    · exact (hk k hname).2 (hnext (hk k hname).1)
    · exact hslash hslash'
    · exact hplus hplus' htime
  | keyword => exact absurd hplain.symm (Keyword.head_ne_plain _ _ _ _)
  | _ => cases hplain

/-- A head is what a kind claims, or nothing claims its line. -/
theorem Reads.claims_or_plain (h : Reads now text first rest head) :
    Claims now (lower first) rest.head? head.kind ∨
      head = .plain text ∧ ∀ kind, ¬ Claims now (lower first) rest.head? kind := by
  cases h with
  | nowFor hplus htime => exact Or.inl (Or.inr ⟨hplus, htime⟩)
  | slash hslash => exact Or.inl (Or.inr hslash)
  | keyword hk hclaims =>
    rw [Keyword.kind_head]
    exact Or.inl (claims_of_keyword hk hclaims)
  | plain hplus hslash hk =>
    have hplain : Reads now text first rest (.plain text) := .plain hplus hslash hk
    exact Or.inr ⟨rfl, hplain.unclaimed⟩

end Head

/-- At most one kind of command claims a line. -/
theorem Claims.unique {now : ClockReading} {name : List Char} {next : Option (List Char)}
    {k l : CommandKind} (hk : Claims now name next k) (hl : Claims now name next l) : k = l := by
  -- The three ways to claim a line differ in how its first word starts.
  have hplus : ['n', 'o', 'w', '+'] <+: name → name.head? ≠ some '/' := by
    rintro ⟨tail, rfl⟩
    simp
  rcases hk.cases with ⟨k, hname, -, rfl⟩ | ⟨hslash, rfl⟩ | ⟨hnow, -, rfl⟩ <;>
  rcases hl.cases with ⟨l, hname', -, rfl⟩ | ⟨hslash', rfl⟩ | ⟨hnow', -, rfl⟩
  · rw [Option.some.inj (hname.symm.trans hname')]
  · exact absurd hslash' (Keyword.not_prefix_of_ofName? hname).2
  · exact absurd hnow' (Keyword.not_prefix_of_ofName? hname).1
  · exact absurd hslash (Keyword.not_prefix_of_ofName? hname').2
  · rfl
  · exact absurd hslash (hplus hnow')
  · exact absurd hnow (Keyword.not_prefix_of_ofName? hname').1
  · exact absurd hslash' (hplus hnow)
  · rfl

/-! ## The kind of a command -/

/-- Whether a word is a time does not depend on the clock. -/
theorem resolves_clock {now now' : ClockReading} {word : List Char} (h : Resolves now word) :
    Resolves now' word := by
  obtain ⟨slot, hread, hslot⟩ := h
  have hmap := (Slot.alike_read False now' now word nofun).map_eq fun _ _ h => h.isEmpty
  rw [hread] at hmap
  obtain ⟨slot', hread', hslot'⟩ := map_eq_ok_iff.1 hmap
  exact ⟨slot', hread', hslot'.trans hslot⟩

theorem Claims.clock {now now' : ClockReading} {name : List Char} {next : Option (List Char)}
    {kind : CommandKind} (h : Claims now name next kind) : Claims now' name next kind := by
  have hnext : StandsAlone now next → StandsAlone now' next := by
    cases next with
    | none => exact id
    | some word => exact Or.imp_right resolves_clock
  cases kind with
  | block => exact Or.imp_right (And.imp_right hnext) h
  | event => exact Or.imp_right (And.imp_right hnext) h
  | quick => exact Or.imp_right (And.imp_right resolves_clock) h
  | _ => exact h

namespace Command

variable {defaults : LineDefaults} {now : ClockReading} {line : String} {c : Command}
  {first : List Char} {rest : List (List Char)}

/-- A command is of the kind that claims its line, and a plain task if there is none. -/
theorem claims_or_ofPlain (hwords : words (trim line.toList) = first :: rest)
    (hread : Command.read defaults now line = .ok c) :
    Claims now (lower first) rest.head? c.kind ∨
      c = ofPlain defaults (trim line.toList) ∧
        ∀ kind, ¬ Claims now (lower first) rest.head? kind := by
  have hblank : trim line.toList ≠ [] := ne_nil_of_words_eq_cons hwords
  rw [read_eq_bind hblank] at hread
  obtain ⟨head, hhead, hc⟩ := bind_eq_ok_iff.1 hread
  have hkind : c.kind = head.kind := kind_of_ofHead hc
  rcases (Head.reads_of_read hwords hhead).claims_or_plain with h | ⟨rfl, h⟩
  · exact Or.inl (hkind ▸ h)
  · exact Or.inr ⟨(Except.ok.inj hc).symm, h⟩

/-- A command is of a kind other than a task exactly if the kind claims its line. -/
theorem kind_eq_iff_claims (hwords : words (trim line.toList) = first :: rest)
    (hread : Command.read defaults now line = .ok c) {kind : CommandKind} (hkind : kind ≠ .task) :
    c.kind = kind ↔ Claims now (lower first) rest.head? kind := by
  rcases claims_or_ofPlain hwords hread with h | ⟨rfl, h⟩
  · constructor
    · rintro rfl
      exact h
    · exact h.unique
  · rw [kind_ofPlain]
    exact ⟨fun htask => absurd htask.symm hkind, fun hclaims => absurd hclaims (h kind)⟩

end Command

end Shorthand
