import Shorthand.Proofs.Command.Keyword
import Shorthand.Proofs.Command.Rules
import Shorthand.Proofs.Slot.Clock

/-!
What the clock decides. A line is read against two clocks at once; `Command.read_clock` says how far
the two commands agree.
-/

namespace Shorthand

open Text

variable {same : Prop}

/-! ## Heads -/

def IsBareBlock (ws : List (List Char)) : Prop :=
  ∃ w, ws = [w] ∧ String.ofList (lower w) ∈ ["blk", "block"]

namespace Head

variable {now : ClockReading} {text first : List Char} {rest : List (List Char)} {head : Head}

/-- Whether a word is a time does not depend on the clock, and a head asks nothing else. -/
theorem read_eq_read (now now' : ClockReading) (text : List Char) :
    Head.read now text = Head.read now' text := by
  have hresolves : resolves now = resolves now' := by
    funext word
    exact (Slot.alike_read False now now' word nofun).map_eq fun _ _ h => congrArg (!·) h.isEmpty
  simp only [Head.read, Keyword.claims, hresolves]

/-- A head is made of words of its line. -/
theorem Reads.mem_left (h : Reads now text first rest head) {w : List Char} (hw : w ∈ head.left) :
    w ∈ rest ∨ w = lower first := by
  cases h with
  | nowFor => exact Or.inr (List.mem_singleton.1 hw)
  | slash => cases hw
  | keyword => exact Or.inl (Keyword.left_head_subset _ _ _ hw)
  | plain => cases hw

theorem Reads.isBareBlock (h : Reads now text first rest head) (hbare : head = .bareBlock) :
    IsBareBlock (first :: rest) := by
  cases h with
  | @keyword k hk =>
    have hname := Keyword.ofName?_eq_some_iff.1 hk
    unfold Keyword.head at hbare
    cases k with
    | block =>
      cases rest with
      | nil => exact ⟨first, rfl, hname⟩
      | cons word more =>
        dsimp only at hbare
        split at hbare <;> cases hbare
    | event =>
      cases rest with
      | nil => cases hbare
      | cons word more =>
        dsimp only at hbare
        split at hbare <;> cases hbare
    | quick action => cases action <;> cases hbare
    | _ => cases hbare
  | _ => cases hbare

end Head

/-! ## Commands -/

namespace Command

/-- A command without what the clock may change: the start of its slot and its preview. -/
def timeless (c : Command) : Command :=
  { c with slot := { c.slot with start := none }, preview := none }

/-- Two commands that differ in what the clock may change at most, and not at all if `same`. -/
structure Alike (same : Prop) (c d : Command) : Prop where
  timeless : c.timeless = d.timeless
  eq : same → c = d

theorem Alike.refl (c : Command) : Alike same c c := ⟨rfl, fun _ => rfl⟩

variable {now now' : ClockReading}

/-- Blocks over slots that are alike are alike. -/
theorem alike_blockAt {s t : Slot} (kind : BlockKind) (time : List Char) (rest : List (List Char))
    (h : s.Alike same t) : Alike same (blockAt kind time rest s) (blockAt kind time rest t) := by
  refine ⟨?_, fun hsame => by rw [h.eq hsame]⟩
  unfold blockAt
  rw [h.isEmpty, h.isComplete]
  split
  · rfl
  · split <;> simp only [Command.timeless, h.finish, h.length]

structure EventParts.Alike (same : Prop) (p q : EventParts) : Prop where
  slot : p.slot.Alike same q.slot
  title : p.title = q.title
  attendees : p.attendees = q.attendees

namespace EventParts

variable {p q : EventParts}

theorem Alike.titled (h : p.Alike same q) (word : List Char) :
    (p.titled word).Alike same (q.titled word) :=
  ⟨h.slot, congrArg (word :: ·) h.title, h.attendees⟩

theorem Alike.joined (h : p.Alike same q) (name : List Char) :
    (p.joined name).Alike same (q.joined name) := by
  unfold EventParts.joined
  split
  · exact h
  · exact ⟨h.slot, h.title, congrArg (name :: ·) h.attendees⟩

theorem Alike.eq (h : p.Alike same q) (hsame : same) : p = q := by
  obtain ⟨slot, title, attendees⟩ := p
  obtain ⟨hslot, rfl, rfl⟩ := h
  have heq : slot = q.slot := hslot.eq hsame
  rw [heq]

theorem alike_read {ws : List (List Char)} {s t : Slot} (hst : s.Alike same t)
    (hws : ∀ w ∈ ws, Agree (Slot.Alike same) (Slot.read now w) (Slot.read now' w)) :
    Agree (Alike same) (EventParts.read now s ws) (EventParts.read now' t ws) := by
  -- By induction on the words: both sides pass over a word together or take it for the time
  -- together, since slots that are alike are empty together and have a start together.
  induction ws generalizing s t with
  | nil => exact .ok ⟨hst, rfl, rfl⟩
  | cons w ws ih =>
    obtain ⟨hw, htail⟩ := List.forall_mem_cons.1 hws
    by_cases hat : w.head? = some '@'
    · obtain ⟨name, rfl⟩ := List.head?_eq_some_iff.1 hat
      rw [read_name, read_name]
      exact (ih hst htail).map fun _ _ h => h.joined name
    · by_cases hstart : s.start = none
      · rw [read_word hat hstart, read_word hat (hst.start_eq_none_iff.1 hstart)]
        refine hw.bind fun time time' htime => ?_
        rw [htime.isEmpty]
        split
        · exact (ih hst htail).map fun _ _ h => h.titled w
        · exact ih htime htail
      · have hs := Option.isSome_iff_ne_none.2 hstart
        have ht := Option.isSome_iff_ne_none.2 (mt hst.start_eq_none_iff.2 hstart)
        rw [read_word_of_isSome hat hs, read_word_of_isSome hat ht]
        exact (ih hst htail).map fun _ _ h => h.titled w

end EventParts

/-- Commands of one head are alike if the slots of its words are. -/
theorem alike_ofHead (defaults : LineDefaults) {head : Head}
    (hleft : ∀ w ∈ head.left, Agree (Slot.Alike same) (Slot.read now w) (Slot.read now' w))
    (hbare : head = .bareBlock → same → ClockTime.ofReading now = ClockTime.ofReading now') :
    Agree (Alike same) (ofHead defaults now head) (ofHead defaults now' head) := by
  -- Only blocks, events and quick actions look at a time.
  cases head with
  | bareBlock =>
    refine .ok ⟨rfl, fun hsame => ?_⟩
    rw [bareBlock, hbare rfl hsame]
    rfl
  | block kind rest =>
    cases rest with
    | nil => exact .ok (.refl _)
    | cons time rest =>
      show Agree _ (ofBlock now kind (time :: rest)) (ofBlock now' kind (time :: rest))
      rw [ofBlock_cons, ofBlock_cons]
      exact (hleft time List.mem_cons_self).map fun _ _ h => alike_blockAt kind time rest h
  | event kind rest =>
    show Agree _ (ofEvent now kind rest) (ofEvent now' kind rest)
    rw [ofEvent_eq_map, ofEvent_eq_map]
    refine (EventParts.alike_read (.refl {}) hleft).map fun p q h => ?_
    refine ⟨?_, fun hsame => by rw [h.eq hsame]⟩
    simp only [Command.timeless, h.slot.finish, h.slot.length, h.title, h.attendees]
  | quick action time =>
    show Agree _ (ofQuick now action time) (ofQuick now' action time)
    have hslot : Agree (Slot.Alike same) (quickSlot now time) (quickSlot now' time) := by
      cases time with
      | none => exact .ok (.refl {})
      | some word => exact hleft word (List.mem_singleton_self word)
    rw [ofQuick_eq_map, ofQuick_eq_map]
    refine hslot.map fun s t h => ⟨?_, fun hsame => by rw [h.eq hsame]⟩
    simp only [Command.timeless, h.finish, h.length]
  | _ => exact .refl .refl _

theorem alike_read (same : Prop) (defaults : LineDefaults) {line : String}
    (hsame : same → ClockTime.ofReading now = ClockTime.ofReading now' ∨
      ¬ IsBareBlock (words (trim line.toList)) ∧
        ∀ w ∈ words (trim line.toList), ¬ IsRelative (lower w)) :
    Agree (Alike same) (Command.read defaults now line) (Command.read defaults now' line) := by
  by_cases hblank : trim line.toList = []
  · rw [read_of_blank hblank, read_of_blank hblank]
    exact .ok (.refl _)
  · obtain ⟨first, rest, hwords⟩ := exists_words_trim hblank
    rw [read_eq_bind hblank, read_eq_bind hblank, Head.read_eq_read now' now]
    cases hhead : Head.read now (trim line.toList) with
    | error fault => exact .error fault
    | ok head =>
      have hreads := Head.reads_of_read hwords hhead
      rw [hwords] at hsame
      have hnot_blank : ∀ w ∈ first :: rest, ∀ c ∈ w, isBlank c = false :=
        fun w hw c => not_blank_of_mem_words (hwords ▸ hw)
      refine alike_ofHead defaults (fun w hw => Slot.alike_read same now now' w fun hs => ?_) ?_
      · refine (hsame hs).imp_right fun h => ?_
        obtain ⟨-, hrelative⟩ := h
        -- A word that is left is a word of the line, or the first one in lower case.
        rcases hreads.mem_left hw with hw | rfl
        · have hmem := List.mem_cons_of_mem first hw
          rw [trim_eq_self_of_not_blank (hnot_blank w hmem)]
          exact hrelative w hmem
        · have hmem : first ∈ first :: rest := List.mem_cons_self
          rw [trim_eq_self_of_not_blank (isBlank_of_mem_lower (hnot_blank first hmem)), lower_lower]
          exact hrelative first hmem
      · intro hb hs
        exact (hsame hs).resolve_right fun h => h.1 (hreads.isBareBlock hb)

/-- The clock decides no more of a command than where its slot starts and what its preview says. It
counts to the minute, and it counts only for a bare block or in a line with a word that is relative
to it. -/
theorem read_clock (defaults : LineDefaults) (now now' : ClockReading) (line : String) :
    (Command.read defaults now line).map Command.timeless =
      (Command.read defaults now' line).map Command.timeless ∧
    (now.hour = now'.hour → now.minute = now'.minute →
      Command.read defaults now line = Command.read defaults now' line) ∧
    (¬ IsBareBlock (words (trim line.toList)) →
      (∀ w ∈ words (trim line.toList), ¬ IsRelative (lower w)) →
      Command.read defaults now line = Command.read defaults now' line) := by
  refine ⟨?_, fun hhour hminute => ?_, fun hbare hrelative => ?_⟩
  · exact (alike_read False defaults nofun).map_eq fun _ _ h => h.timeless
  · have hclock : ClockTime.ofReading now = ClockTime.ofReading now' := ClockTime.ext hhour hminute
    exact (alike_read True defaults fun _ => Or.inl hclock).eq fun _ _ h => h.eq trivial
  · exact (alike_read True defaults fun _ => Or.inr ⟨hbare, hrelative⟩).eq
      fun _ _ h => h.eq trivial

theorem read_clock_of_standup :
    ¬ IsBareBlock (words (trim "evt standup 9-11 @nora".toList)) ∧
      (∀ w ∈ words (trim "evt standup 9-11 @nora".toList), ¬ IsRelative (lower w)) ∧
      Command.read {} ⟨8, 10, 0⟩ "evt standup 9-11 @nora" =
        Command.read {} ⟨23, 50, 59⟩ "evt standup 9-11 @nora" ∧
      Command.read {} ⟨8, 10, 0⟩ "blk" = Command.read {} ⟨8, 10, 59⟩ "blk" := by
  have hlast : ∀ cs, IsRelative cs → cs.getLast? ∈ [some 'w', some 'h', some 'm'] := by
    rintro _ (_ | @⟨cs, n, u, -⟩ | @⟨cs, n, u, -⟩)
    · decide
    · cases u <;> simp [List.getLast?_cons, TimeUnit.letter]
    · cases u <;> simp [TimeUnit.letter]
  have hbare : ¬ IsBareBlock (words (trim "evt standup 9-11 @nora".toList)) := by
    have hlen : (words (trim "evt standup 9-11 @nora".toList)).length = 4 := by decide
    rintro ⟨w, hw, -⟩
    rw [hw] at hlen
    cases hlen
  have hrelative : ∀ w ∈ words (trim "evt standup 9-11 @nora".toList), ¬ IsRelative (lower w) := by
    have hall : ∀ w ∈ words (trim "evt standup 9-11 @nora".toList),
        (lower w).getLast? ∉ [some 'w', some 'h', some 'm'] := by decide
    exact fun w hw h => hall w hw (hlast _ h)
  exact ⟨hbare, hrelative,
    (read_clock {} ⟨8, 10, 0⟩ ⟨23, 50, 59⟩ "evt standup 9-11 @nora").2.2 hbare hrelative,
    (read_clock {} ⟨8, 10, 0⟩ ⟨8, 10, 59⟩ "blk").2.1 rfl rfl⟩

end Command

end Shorthand
