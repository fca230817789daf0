import Shorthand.Proofs.Command.Batch
import Shorthand.Proofs.Command.Time

/-!
What the defaults decide. A line is read under two sets of defaults at once; `Command.read_defaults`
says that they count for the length of a bare block and for the minutes of a task that states none,
and for nothing else.
-/

namespace Shorthand

open Text

def openMinutes (defaults : LineDefaults) : Nat := max defaults.taskMinutes.toNat 1

/-- A line that nothing claims and that does not end in the minutes of a task. -/
def LeavesMinutesOpen (now : ClockReading) (line : String) : Prop :=
  ∃ first rest, words line.toList = first :: rest ∧
    (∀ kind, ¬ Claims now (lower first) rest.head? kind) ∧
    ∀ front n, ¬ EndsInMinutes (trim line.toList) front n

theorem one_le_bareMinutes (defaults : LineDefaults) : 1 ≤ bareMinutes defaults := by
  unfold bareMinutes
  split
  · exact Nat.le_max_right ..
  · decide

theorem one_le_openMinutes (defaults : LineDefaults) : 1 ≤ openMinutes defaults :=
  Nat.le_max_right ..

section Lines

variable {now : ClockReading} {line : String} {text first : List Char} {rest : List (List Char)}

theorem IsBareBlock.keyword (h : IsBareBlock (first :: rest)) :
    Keyword.ofName? (String.ofList (lower first)) = some .block ∧ rest = [] := by
  obtain ⟨w, hw, hname⟩ := h
  obtain ⟨rfl, rfl⟩ := List.cons.inj hw
  exact ⟨Keyword.ofName?_eq_some_iff.2 hname, rfl⟩

/-- A bare block is known by its only word. -/
theorem Head.read_of_isBareBlock (hwords : words text = first :: rest)
    (h : IsBareBlock (first :: rest)) : Head.read now text = .ok .bareBlock := by
  obtain ⟨hk, rfl⟩ := h.keyword
  exact read_of_claims hwords hk nofun

/-- A bare block is claimed by its keyword. -/
theorem IsBareBlock.not_leavesMinutesOpen (h : IsBareBlock (words line.toList)) :
    ¬ LeavesMinutesOpen now line := by
  rintro ⟨first, rest, hwords, hnone, -⟩
  rw [hwords] at h
  exact hnone _ (claims_of_keyword h.keyword.1 nofun)

end Lines

namespace Command

/-- How the two commands `c` and `c'` of one line differ that is read under the defaults `d` and
`d'`: a bare block in its length, a task that states no minutes in these, and each of them in the
preview, which restates the command. -/
structure DefaultsApart (d d' : LineDefaults) (now : ClockReading) (line : String)
    (c c' : Command) : Prop where
  bareBlock : IsBareBlock (words line.toList) →
    c' = { c with slot := { c.slot with length := c'.slot.length }, preview := c'.preview } ∧
      c.slot.length = some (bareMinutes d : Int) ∧ c'.slot.length = some (bareMinutes d' : Int) ∧
      1 ≤ bareMinutes d ∧ 1 ≤ bareMinutes d'
  openTask : LeavesMinutesOpen now line →
    c' = { c with tasks := c'.tasks, preview := c'.preview } ∧
      (∃ t, c.tasks = [t] ∧ t.minutes = openMinutes d ∧
        c'.tasks = [{ t with minutes := openMinutes d' }]) ∧
      1 ≤ openMinutes d ∧ 1 ≤ openMinutes d'
  otherwise : ¬ IsBareBlock (words line.toList) → ¬ LeavesMinutesOpen now line → c' = c

section Read

variable {d d' : LineDefaults} {now : ClockReading} {line : String}

/-- Nothing but a bare block and a plain line looks at the defaults. -/
theorem ofHead_defaults {head : Head} (hbare : head ≠ .bareBlock)
    (hplain : ∀ text, head ≠ .plain text) : ofHead d now head = ofHead d' now head := by
  cases head with
  | bareBlock => exact absurd rfl hbare
  | plain text => exact absurd rfl (hplain text)
  | _ => rfl

/-- Two bare blocks differ in their lengths, which are those of the defaults. -/
theorem defaultsApart_bareBlock (hbare : IsBareBlock (words line.toList)) :
    DefaultsApart d d' now line (Command.bareBlock d now) (Command.bareBlock d' now) where
  bareBlock _ := ⟨rfl, rfl, rfl, one_le_bareMinutes d, one_le_bareMinutes d'⟩
  openTask hopen := absurd hopen hbare.not_leavesMinutesOpen
  otherwise hnot := absurd hbare hnot

theorem DefaultsApart.same (hbare : ¬ IsBareBlock (words line.toList))
    (hopen : ¬ LeavesMinutesOpen now line) (c : Command) : DefaultsApart d d' now line c c where
  bareBlock h := absurd h hbare
  openTask h := absurd h hopen
  otherwise _ _ := rfl

/-- A plain line is the same task under all defaults if it ends in its minutes, and else the same
task but for its minutes. -/
theorem defaultsApart_ofPlain {first : List Char} {rest : List (List Char)}
    (hwords : words line.toList = first :: rest)
    (hnone : ∀ kind, ¬ Claims now (lower first) rest.head? kind)
    (hbare : ¬ IsBareBlock (words line.toList)) :
    DefaultsApart d d' now line (ofPlain d (trim line.toList)) (ofPlain d' (trim line.toList)) := by
  unfold ofPlain
  cases hparts : (Task.nameAndMinutes? (trim line.toList)).bind fun p => Task.ofParts? p.1 p.2 with
  | some t =>
    obtain ⟨front, n, hends, -⟩ := parts_eq_some_iff.1 hparts
    refine .same hbare ?_ (ofTask t)
    rintro ⟨-, -, -, -, hopen⟩
    exact hopen front n hends
  | none =>
    have hopen : LeavesMinutesOpen now line := by
      refine ⟨first, rest, hwords, hnone, fun front n hends => ?_⟩
      have hsome := parts_eq_some_iff.2 ⟨front, n, hends, rfl⟩
      rw [hparts] at hsome
      cases hsome
    exact {
      bareBlock := fun h => absurd h hbare
      openTask := fun _ =>
        ⟨rfl, ⟨_, rfl, rfl, rfl⟩, one_le_openMinutes d, one_le_openMinutes d'⟩
      otherwise := fun _ h => absurd hopen h }

/-- A line under two sets of defaults has the same fault, or commands that differ as `DefaultsApart`
says. -/
theorem agree_read_defaults (d d' : LineDefaults) (now : ClockReading) (line : String) :
    Agree (DefaultsApart d d' now line) (Command.read d now line) (Command.read d' now line) := by
  by_cases hblank : trim line.toList = []
  · have hnil : words line.toList = [] := by rw [← words_trim, hblank]; rfl
    rw [read_of_blank hblank, read_of_blank hblank]
    refine .ok (.same ?_ ?_ _)
    · rintro ⟨w, hw, -⟩
      rw [hnil] at hw
      cases hw
    · rintro ⟨first, rest, hwords, -⟩
      rw [hnil] at hwords
      cases hwords
  · obtain ⟨first, rest, hwords⟩ := exists_words_trim hblank
    have hline : words line.toList = first :: rest := by rw [← words_trim, hwords]
    rw [read_eq_bind hblank, read_eq_bind hblank]
    by_cases hbare : IsBareBlock (words line.toList)
    · rw [Head.read_of_isBareBlock hwords (hline ▸ hbare)]
      exact .ok (defaultsApart_bareBlock hbare)
    · cases hhead : Head.read now (trim line.toList) with
      | error fault => exact .error fault
      | ok head =>
        have hreads := Head.reads_of_read hwords hhead
        show Agree _ (ofHead d now head) (ofHead d' now head)
        rcases hreads.claims_or_plain with hclaims | ⟨rfl, hnone⟩
        · -- A claimed line that is no bare block takes nothing from the defaults.
          have hne : head ≠ .bareBlock := fun h => hbare (hline ▸ hreads.isBareBlock h)
          have hplain : ∀ text, head ≠ .plain text := by
            rintro text rfl
            exact hreads.unclaimed _ hclaims
          have hopen : ¬ LeavesMinutesOpen now line := by
            rintro ⟨first', rest', hwords', hnone, -⟩
            obtain ⟨rfl, rfl⟩ := List.cons.inj (hline.symm.trans hwords')
            exact hnone _ hclaims
          rw [ofHead_defaults hne hplain]
          exact .refl (.same hbare hopen) _
        · exact .ok (defaultsApart_ofPlain hline hnone hbare)

end Read

/-- Under any two sets of defaults a line is read alike: with the same fault, or as the same
command, unless it is a bare block or leaves the minutes of a task open; then the two commands have
their own default length or minutes, which are at least one, and are the same otherwise. The
commands of a batch are read alike one by one. -/
theorem read_defaults (d d' : LineDefaults) (now : ClockReading) :
    (∀ line, Agree (DefaultsApart d d' now line)
      (Command.read d now line) (Command.read d' now line)) ∧
    ∀ b : Command, b.kind = .batch →
      Agree (Members (DefaultsApart d d' now) b.notes.commands)
        (expand d now b) (expand d' now b) := by
  refine ⟨agree_read_defaults d d' now, fun b hbatch => ?_⟩
  rw [expand_of_batch hbatch, expand_of_batch hbatch]
  exact .mapM (agree_read_defaults d d' now) b.notes.commands

/-- Under defaults of nothing a bare block and a plain task take a minute, and the commands of a
batch differ in the same way. -/
theorem read_defaults_nothing :
    (∃ c c', Command.read ⟨60, 30⟩ ⟨8, 10, 0⟩ "blk" = .ok c ∧
      Command.read ⟨0, 0⟩ ⟨8, 10, 0⟩ "blk" = .ok c' ∧
      c' = { c with slot := { c.slot with length := c'.slot.length }, preview := c'.preview } ∧
      c.slot.length = some 60 ∧ c'.slot.length = some 1) ∧
    (∃ c c', Command.read ⟨60, 30⟩ ⟨8, 10, 0⟩ "water plants" = .ok c ∧
      Command.read ⟨0, 0⟩ ⟨8, 10, 0⟩ "water plants" = .ok c' ∧
      c' = { c with tasks := c'.tasks, preview := c'.preview } ∧
      c.tasks = [{ name := "water plants", minutes := 30 }] ∧
      c'.tasks = [{ name := "water plants", minutes := 1 }]) ∧
    Agree (Members (DefaultsApart ⟨60, 30⟩ ⟨0, 0⟩ ⟨8, 10, 0⟩) ["blk", "water plants"])
      (expand ⟨60, 30⟩ ⟨8, 10, 0⟩ { kind := .batch, notes := { commands := ["blk", "water plants"] } })
      (expand ⟨0, 0⟩ ⟨8, 10, 0⟩
        { kind := .batch, notes := { commands := ["blk", "water plants"] } }) := by
  obtain ⟨hline, hbatch⟩ := read_defaults ⟨60, 30⟩ ⟨0, 0⟩ ⟨8, 10, 0⟩
  have hblk := hline "blk"
  have hplants := hline "water plants"
  have hbare : IsBareBlock (words "blk".toList) := ⟨"blk".toList, by decide, by decide⟩
  have hwords : words "water plants".toList = ["water".toList, "plants".toList] := by decide
  have hopen : LeavesMinutesOpen ⟨8, 10, 0⟩ "water plants" := by
    have hhead : Head.read ⟨8, 10, 0⟩ "water plants".toList = .ok (.plain "water plants".toList) := by
      decide
    have hnone : ((Task.nameAndMinutes? (trim "water plants".toList)).bind fun p =>
        Task.ofParts? p.1 p.2) = none := by decide
    refine ⟨_, _, hwords, (Head.reads_of_read hwords hhead).unclaimed, fun front n hends => ?_⟩
    have hsome := parts_eq_some_iff.2 ⟨front, n, hends, rfl⟩
    rw [hnone] at hsome
    cases hsome
  have hread : Command.read ⟨60, 30⟩ ⟨8, 10, 0⟩ "blk" = .ok (bareBlock ⟨60, 30⟩ ⟨8, 10, 0⟩) := by
    decide
  have hread' : Command.read ⟨0, 0⟩ ⟨8, 10, 0⟩ "blk" = .ok (bareBlock ⟨0, 0⟩ ⟨8, 10, 0⟩) := by
    decide
  have htask : Command.read ⟨60, 30⟩ ⟨8, 10, 0⟩ "water plants" =
      .ok (ofTask { name := "water plants", minutes := 30 }) := by decide
  have htask' : Command.read ⟨0, 0⟩ ⟨8, 10, 0⟩ "water plants" =
      .ok (ofTask { name := "water plants", minutes := 1 }) := by decide
  rw [hread, hread'] at hblk
  rw [htask, htask'] at hplants
  refine ⟨⟨_, _, hread, hread', ?_⟩, ⟨_, _, htask, htask', ?_⟩,
    hbatch { kind := .batch, notes := { commands := ["blk", "water plants"] } } rfl⟩
  · cases hblk with
    | ok hapart =>
      obtain ⟨hsame, hlength, hlength', -⟩ := hapart.bareBlock hbare
      exact ⟨hsame, hlength, hlength'⟩
  · cases hplants with
    | ok hapart => exact ⟨(hapart.openTask hopen).1, rfl, rfl⟩

end Command

end Shorthand
