import Shorthand.CommandLine.Run
import Shorthand.Proofs.Chain
import Shorthand.Proofs.Json.OneLine
import Shorthand.Proofs.Text.Bytes

/-!
Input read line by line. `Asked.pipe_reads_lines` says that the output holds a line for each command
of the input, and none if a line of the input cannot be read.
-/

namespace Shorthand

open Text

def outputLines (text : String) : List String :=
  if text.isEmpty then [] else (pieces (· == '\n') text.toList).map String.ofList

/-- Lines that are put together are found again, if none is empty or holds a line end. -/
theorem outputLines_intercalate {ls : List String} (hne : ∀ l ∈ ls, l ≠ "")
    (hend : ∀ l ∈ ls, '\n' ∉ l.toList) : outputLines (String.intercalate "\n" ls) = ls := by
  have hself : (ls.map String.toList).map String.ofList = ls := by
    rw [List.map_map]
    conv => rhs; rw [← List.map_id ls]
    exact List.map_congr_left fun l _ => String.ofList_toList
  by_cases hnil : ls = []
  · rw [hnil]
    rfl
  · have hpieces : pieces (· == '\n') (String.intercalate "\n" ls).toList =
        ls.map String.toList := by
      rw [String.toList_intercalate]
      refine pieces_intercalate (by simpa using hnil) fun cs hcs => ?_
      obtain ⟨l, hl, rfl⟩ := List.mem_map.1 hcs
      exact hend l hl
    -- An empty text has an empty piece, and there is no empty line.
    have htext : ¬ (String.intercalate "\n" ls).isEmpty = true := by
      intro hempty
      have hnone : (String.intercalate "\n" ls).toList = [] := by
        rw [String.isEmpty_iff] at hempty
        rw [hempty]
        rfl
      rw [hnone] at hpieces
      have hline : "" ∈ ls := by
        have hmem : [] ∈ ls.map String.toList := hpieces ▸ List.mem_singleton_self []
        obtain ⟨l, hl, hl'⟩ := List.mem_map.1 hmem
        rwa [String.toList_eq_nil_iff.1 hl'] at hl
      exact hne "" hline rfl
    rw [outputLines, if_neg htext, hpieces, hself]

namespace Asked

variable (a : Asked)

def fed (bytes : List UInt8) : Asked :=
  { a with around := { a.around with input := ⟨bytes.toArray⟩ } }

/-! ## Commands of the input -/

theorem command_eq_ok_iff {now : ClockReading} {line : String} {c : Command} :
    a.command now line = .ok c ↔ Command.read a.settings.line now line = .ok c := by
  unfold command
  cases Command.read a.settings.line now line with
  | ok d => exact ⟨fun h => by cases h; rfl, fun h => by cases h; rfl⟩
  | error fault => exact ⟨nofun, nofun⟩

/-- A line that is a text has the command of what is left of it without blanks. -/
theorem inputCommand?_utf8 (now : ClockReading) (cs : List Char) :
    a.inputCommand? now (utf8 cs) =
      if trim cs = [] then .ok none
      else (a.command now (String.ofList (trim cs))).map some := by
  have hread : String.fromUTF8? ⟨(utf8 cs).toArray⟩ = some (String.ofList cs) :=
    fromUTF8?_eq_some_iff.2 (by rw [String.toList_ofList])
  unfold inputCommand?
  rw [hread]
  simp only [String.toList_ofList, List.isEmpty_iff]

/-- Lines that are texts have the commands of what is left of them without blanks. -/
theorem mapM_inputCommand? (now : ClockReading) (ls : List (List Char)) :
    ((ls.map utf8).mapM (a.inputCommand? now)).map (·.filterMap id) =
      ((ls.map trim).filter (!·.isEmpty)).mapM fun l => a.command now (String.ofList l) := by
  induction ls with
  | nil => rfl
  | cons l ls ih =>
    rw [List.map_cons, List.mapM_cons, inputCommand?_utf8, List.map_cons, List.filter_cons]
    by_cases hl : trim l = []
    · rw [if_pos hl, if_neg (by simp [hl]), ← ih]
      cases (ls.map utf8).mapM (a.inputCommand? now) <;> rfl
    · rw [if_neg hl, if_pos (by simp [hl]), List.mapM_cons, ← ih]
      cases a.command now (String.ofList (trim l)) with
      | error failure => rfl
      | ok c => cases (ls.map utf8).mapM (a.inputCommand? now) <;> rfl

def inputCommands (now : ClockReading) (bytes : List UInt8) : Except Failure (List Command) :=
  ((pieces (· == 10) bytes).mapM (a.inputCommand? now)).map (·.filterMap id)

/-- An input that is a text has the commands of its lines, the blank ones left out. -/
theorem inputCommands_utf8 (now : ClockReading) (cs : List Char) :
    a.inputCommands now (utf8 cs) =
      (fields (· == '\n') cs).mapM fun l => a.command now (String.ofList l) := by
  rw [inputCommands, pieces_utf8, mapM_inputCommand?, fields]

/-- Behind a line end another input can stand, and its commands follow. -/
theorem inputCommands_append {now : ClockReading} {x y : List UInt8} {cs ds : List Command}
    (hx : ∀ b ∈ x.getLast?, b = 10) (hcs : a.inputCommands now x = .ok cs)
    (hds : a.inputCommands now y = .ok ds) :
    a.inputCommands now (x ++ y) = .ok (cs ++ ds) := by
  have hnone : a.inputCommand? now [] = .ok none := by
    show a.inputCommand? now (utf8 []) = _
    rw [inputCommand?_utf8, if_pos (by decide)]
  have hblank : [[]].mapM (a.inputCommand? now) = .ok [none] := by
    rw [List.mapM_cons, hnone]
    rfl
  -- The first input leaves an empty piece behind its line end, which is no command.
  have hsep : ∀ b ∈ x.getLast?, (b == 10) = true := fun b hb => by simpa using hx b hb
  obtain ⟨front, hfront, hboth⟩ := exists_pieces_append_of_sep_last hsep y
  rw [inputCommands] at hcs hds ⊢
  obtain ⟨xs, hxs, rfl⟩ := map_eq_ok_iff.1 hcs
  obtain ⟨ys, hys, rfl⟩ := map_eq_ok_iff.1 hds
  rw [hfront, List.mapM_append, hblank] at hxs
  obtain ⟨us, hus, hxs⟩ := bind_eq_ok_iff.1 hxs
  obtain rfl : us ++ [none] = xs := Except.ok.inj hxs
  rw [hboth, List.mapM_append, hus, hys]
  show Except.ok ((us ++ ys).filterMap id) = _
  rw [List.filterMap_append, List.filterMap_append]
  simp

/-! ## The output -/

def output (validOnly : Bool) (cs : List Command) : String :=
  String.intercalate "\n" <|
    (cs.filter fun c => !validOnly || c.isValid).map fun c => c.toJson.toLine

/-- The lines of an output are those of its commands. -/
theorem outputLines_output (validOnly : Bool) (cs : List Command) :
    outputLines (output validOnly cs) =
      (cs.filter fun c => !validOnly || c.isValid).map fun c => c.toJson.toLine := by
  apply outputLines_intercalate
  · intro l hl
    obtain ⟨c, -, rfl⟩ := List.mem_map.1 hl
    have hne : c.toJson.compact ≠ [] := by
      rw [Command.toJson, Json.compact]
      exact List.cons_ne_nil _ _
    exact mt String.ofList_eq_empty_iff.1 hne
  · intro l hl hend
    obtain ⟨c, -, rfl⟩ := List.mem_map.1 hl
    rw [Json.toLine, String.toList_ofList] at hend
    exact absurd (c.onOneLine_toJson _ hend) (by decide)

/-- No line of an output holds a control character. -/
theorem shown_of_mem_outputLines {validOnly : Bool} {cs : List Command} {line : String}
    (hline : line ∈ outputLines (output validOnly cs)) : Shown line.toList := by
  rw [outputLines_output] at hline
  obtain ⟨c, -, rfl⟩ := List.mem_map.1 hline
  rw [Json.toLine, String.toList_ofList]
  exact c.onOneLine_toJson

theorem outputLines_output_append (validOnly : Bool) (cs ds : List Command) :
    outputLines (output validOnly (cs ++ ds)) =
      outputLines (output validOnly cs) ++ outputLines (output validOnly ds) := by
  rw [outputLines_output, outputLines_output, outputLines_output, List.filter_append,
    List.map_append]

def shownLine? (validOnly : Bool) (c : Command) : Option String :=
  if !validOnly || c.isValid then some c.toJson.toLine else none

theorem filterMap_shownLine? (validOnly : Bool) (cs : List Command) :
    cs.filterMap (shownLine? validOnly) =
      (cs.filter fun c => !validOnly || c.isValid).map fun c => c.toJson.toLine := by
  rw [← List.filterMap_eq_map, List.filterMap_filter]
  rfl

section Json

variable (hjson : a.form = .json) {clock : Option String} {validOnly : Bool}

include hjson

/-- What is shown for a line of input is that of its command. -/
theorem inputReport?_eq_map (now : ClockReading) (validOnly : Bool) (bytes : List UInt8) :
    a.inputReport? now validOnly bytes =
      (a.inputCommand? now bytes).map (·.bind (shownLine? validOnly)) := by
  rw [inputReport?]
  cases a.inputCommand? now bytes with
  | error failure => rfl
  | ok c? =>
    cases c? with
    | none => rfl
    | some c =>
      simp only [hjson]
      show (if (!validOnly || c.isValid) = true then _ else _) = Except.ok (shownLine? validOnly c)
      rw [shownLine?]
      split <;> rfl

/-- As JSON the output is put together from the commands of the whole input. -/
theorem pipe_eq_bind (clock : Option String) (validOnly : Bool) (bytes : List UInt8) :
    (a.fed bytes).pipe clock validOnly = a.clock clock >>= fun now =>
      (a.inputCommands now bytes).map (output validOnly) := by
  have hreport (now : ClockReading) : (a.fed bytes).inputReport? now validOnly =
      fun line => (a.inputCommand? now line).map (·.bind (shownLine? validOnly)) :=
    funext fun line => (a.fed bytes).inputReport?_eq_map hjson now validOnly line
  show (a.clock clock >>= fun now =>
    (pieces (· == 10) bytes).mapM ((a.fed bytes).inputReport? now validOnly) >>= _) = _
  refine congrArg (a.clock clock >>= ·) (funext fun now => ?_)
  rw [hreport, mapM_map, inputCommands]
  cases (pieces (· == 10) bytes).mapM (a.inputCommand? now) with
  | error failure => rfl
  | ok cs =>
    show Except.ok (String.intercalate "\n" _) = Except.ok (output validOnly _)
    rw [output, ← filterMap_shownLine?, List.filterMap_map, List.filterMap_filterMap]
    rfl

/-- There is an output exactly if the clock and all lines of the input can be read. -/
theorem pipe_eq_ok_iff {bytes : List UInt8} {out : String} :
    (a.fed bytes).pipe clock validOnly = .ok out ↔ ∃ now cs, a.clock clock = .ok now ∧
      a.inputCommands now bytes = .ok cs ∧ out = output validOnly cs := by
  simp only [a.pipe_eq_bind hjson, bind_eq_ok_iff, map_eq_ok_iff]
  constructor
  · rintro ⟨now, hclock, cs, hcs, rfl⟩
    exact ⟨now, cs, hclock, hcs, rfl⟩
  · rintro ⟨now, cs, hclock, hcs, rfl⟩
    exact ⟨now, hclock, cs, hcs, rfl⟩

theorem pipe_of_text {bytes : List UInt8} {text : String} {now : ClockReading} {cs : List Command}
    (htext : String.fromUTF8? ⟨bytes.toArray⟩ = some text) (hclock : a.clock clock = .ok now)
    (hcs : List.Forall₂ (fun l c => Command.read a.settings.line now (String.ofList l) = .ok c)
      (fields (· == '\n') text.toList) cs) :
    (a.fed bytes).pipe clock validOnly = .ok (output validOnly cs) := by
  rw [a.pipe_eq_ok_iff hjson]
  refine ⟨now, cs, hclock, ?_, rfl⟩
  rw [fromUTF8?_eq_some_iff.1 htext, inputCommands_utf8, mapM_eq_ok_iff]
  exact hcs.imp fun l c => a.command_eq_ok_iff.2

theorem pipe_append {x y : List UInt8} {out out' : String} (hx : ∀ b ∈ x.getLast?, b = 10)
    (hout : (a.fed x).pipe clock validOnly = .ok out)
    (hout' : (a.fed y).pipe clock validOnly = .ok out') :
    ∃ both, (a.fed (x ++ y)).pipe clock validOnly = .ok both ∧
      outputLines both = outputLines out ++ outputLines out' := by
  obtain ⟨now, cs, hclock, hcs, rfl⟩ := (a.pipe_eq_ok_iff hjson).1 hout
  obtain ⟨now', ds, hclock', hds, rfl⟩ := (a.pipe_eq_ok_iff hjson).1 hout'
  -- Both inputs are read by one clock.
  obtain rfl : now = now' := Except.ok.inj (hclock.symm.trans hclock')
  exact ⟨output validOnly (cs ++ ds), (a.pipe_eq_ok_iff hjson).2
    ⟨now, cs ++ ds, hclock, a.inputCommands_append hx hcs hds, rfl⟩,
    outputLines_output_append validOnly cs ds⟩

/-- A line that is no text keeps all commands from being put out. -/
theorem exists_pipe_error {bytes line : List UInt8} (hline : line ∈ pieces (· == 10) bytes)
    (htext : String.fromUTF8? ⟨line.toArray⟩ = none) :
    ∃ failure, (a.fed bytes).pipe clock validOnly = .error failure := by
  cases hpipe : (a.fed bytes).pipe clock validOnly with
  | error failure => exact ⟨failure, rfl⟩
  | ok out =>
    obtain ⟨now, cs, -, hcs, -⟩ := (a.pipe_eq_ok_iff hjson).1 hpipe
    rw [inputCommands] at hcs
    obtain ⟨xs, hxs, -⟩ := map_eq_ok_iff.1 hcs
    obtain ⟨c?, hread⟩ := exists_ok_of_mem hxs hline
    rw [inputCommand?, htext] at hread
    cases hread

end Json

/-- Each input line that is not blank gives one line of output, which is the command it is read as,
and only valid commands are kept if that is asked for; an input behind a line end is read on its
own. A line that is no text, or a clock that is no time of day, leaves no output at all. -/
theorem pipe_reads_lines (hjson : a.form = .json) (clock : Option String) (validOnly : Bool) :
    (∀ bytes text now cs, String.fromUTF8? ⟨bytes.toArray⟩ = some text →
      a.clock clock = .ok now →
      List.Forall₂ (fun l c => Command.read a.settings.line now (String.ofList l) = .ok c)
        (fields (· == '\n') text.toList) cs →
      ∃ out, (a.fed bytes).pipe clock validOnly = .ok out ∧
        outputLines out =
          (cs.filter fun c => !validOnly || c.isValid).map (fun c => c.toJson.toLine) ∧
        ∀ line ∈ outputLines out, ∀ c ∈ line.toList, 0x20 ≤ c.toNat) ∧
    (∀ x y out out', (∀ b ∈ x.getLast?, b = 10) → (a.fed x).pipe clock validOnly = .ok out →
      (a.fed y).pipe clock validOnly = .ok out' →
      ∃ both, (a.fed (x ++ y)).pipe clock validOnly = .ok both ∧
        outputLines both = outputLines out ++ outputLines out') ∧
    (∀ bytes, (String.fromUTF8? ⟨bytes.toArray⟩ = none ↔
        ∃ line ∈ pieces (· == 10) bytes, String.fromUTF8? ⟨line.toArray⟩ = none) ∧
      (String.fromUTF8? ⟨bytes.toArray⟩ = none →
        ∃ failure, (a.fed bytes).pipe clock validOnly = .error failure)) ∧
    ∀ text fault, clock = some text → ClockTime.read text = .error fault →
      ∀ bytes, (a.fed bytes).pipe clock validOnly = .error (.clockInvalid text fault) := by
  refine ⟨fun bytes text now cs htext hclock hcs => ?_, fun x y out out' => a.pipe_append hjson,
    fun bytes => ⟨fromUTF8?_eq_none_iff, fun hnone => ?_⟩, fun text fault htext hfault bytes => ?_⟩
  · exact ⟨output validOnly cs, a.pipe_of_text hjson htext hclock hcs,
      outputLines_output validOnly cs, fun line => shown_of_mem_outputLines⟩
  · -- A line in front of it may end the run with a fault of its own; one of the two does.
    obtain ⟨line, hline, hbad⟩ := fromUTF8?_eq_none_iff.1 hnone
    exact a.exists_pipe_error hjson hline hbad
  · rw [a.pipe_eq_bind hjson, htext, Asked.clock]
    simp only [hfault]
    rfl

theorem pipe_keeps_valid_line :
    ∃ a : Asked, a.form = .json ∧
      ∃ out, (a.fed (utf8 "tsk a\r\n \nnext".toList)).pipe (some "08:00") true = .ok out ∧
        outputLines out = ["\x7b\"type\":\"quick\",\"subtype\":\"next\",\"isValid\":true," ++
          "\"preview\":\"Jump to the next block\"\x7d"] := by
  let a : Asked := {
    settings := {}, file := ⟨"config.yaml"⟩, form := .json
    around := { now := ⟨8, 10, 0⟩, home := none, input := ⟨#[]⟩, terminal := false } }
  have hclock : a.clock (some "08:00") = .ok ⟨8, 0, 0⟩ := by decide
  have htext : String.fromUTF8? ⟨(utf8 "tsk a\r\n \nnext".toList).toArray⟩ =
      some "tsk a\r\n \nnext" := fromUTF8?_eq_some_iff.2 rfl
  have hfields : fields (· == '\n') "tsk a\r\n \nnext".toList = ["tsk a".toList, "next".toList] := by
    decide
  have htask : Command.read {} ⟨8, 0, 0⟩ (String.ofList "tsk a".toList) =
      .ok { kind := .task, hint := some Hint.task } := by decide
  have hnext : Command.read {} ⟨8, 0, 0⟩ (String.ofList "next".toList) =
      .ok { kind := .quick, subtype := some "next", isValid := true
            preview := some "Jump to the next block" } := by decide
  obtain ⟨hlines, -⟩ := a.pipe_reads_lines rfl (some "08:00") true
  obtain ⟨out, hout, hshown, -⟩ := hlines _ _ _ _ htext hclock (by
    rw [hfields]
    exact .cons htask (.cons hnext .nil))
  refine ⟨a, rfl, out, hout, ?_⟩
  rw [hshown]
  decide

end Asked

end Shorthand
