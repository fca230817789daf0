import Shorthand.Proofs.Command.Dispatch
import Shorthand.Proofs.Command.Fault

/-!
Batches: commands with slashes between them. `Command.batch_holds_joined` says that the commands of
a batch are what was joined, that they are read one by one, and that opening batches inside batches
comes to an end.
-/

namespace Shorthand

open Text

/-! ## Joined commands -/

structure IsPiece (cs : List Char) : Prop where
  ne_nil : cs ≠ []
  no_slash : '/' ∉ cs
  trim_eq : trim cs = cs

/-- What can stand between two slashes, with the commands that stand there: one with blanks around
it, or nothing but blanks. -/
inductive Between : List (List Char) → List Char → Prop
  | nothing {blanks : List Char} (hb : ∀ c ∈ blanks, isBlank c = true) : Between [] blanks
  | piece {front cs back : List Char} (hfront : ∀ c ∈ front, isBlank c = true) (hcs : IsPiece cs)
      (hback : ∀ c ∈ back, isBlank c = true) : Between [cs] (front ++ (cs ++ back))

/-- The text is the commands in their order, with slashes between them; there may be more slashes
than are needed, and blanks anywhere around them. -/
inductive Joins : List (List Char) → List Char → Prop
  | last {ps : List (List Char)} {text : List Char} (h : Between ps text) : Joins ps text
  | slash {ps qs : List (List Char)} {text rest : List Char} (h : Between ps text)
      (hrest : Joins qs rest) : Joins (ps ++ qs) (text ++ '/' :: rest)

theorem isSlash_eq_false {cs : List Char} (h : '/' ∉ cs) : ∀ c ∈ cs, isSlash c = false := by
  intro c hc
  have hne : c ≠ '/' := by
    rintro rfl
    exact h hc
  simpa [isSlash] using hne

/-- What stands between two slashes is taken as the commands in it. -/
theorem Between.fields_eq {ps : List (List Char)} {text : List Char} (h : Between ps text) :
    fields isSlash text = ps := by
  cases h with
  | nothing hb =>
    have htrim : trim text = [] := by
      rw [← List.append_nil text, trim_blanks_append hb]
      rfl
    rw [fields_of_not_sep fun c hc => not_isSlash_of_isBlank c (hb c hc), if_pos htrim]
  | piece hfront hcs hback =>
    rw [fields_blanks_append not_isSlash_of_isBlank hfront,
      fields_append_blanks not_isSlash_of_isBlank hback,
      fields_of_not_sep (isSlash_eq_false hcs.no_slash), hcs.trim_eq, if_neg hcs.ne_nil]

theorem between_fields {text : List Char} (h : '/' ∉ text) : Between (fields isSlash text) text := by
  obtain ⟨front, back, hfront, hback, htext⟩ := exists_blanks_trim text
  rw [fields_of_not_sep (isSlash_eq_false h)]
  by_cases hnil : trim text = []
  · rw [if_pos hnil]
    refine .nothing fun c hc => ?_
    rw [hnil, List.nil_append] at htext
    rw [htext] at hc
    exact (List.mem_append.1 hc).elim (hfront c) (hback c)
  · rw [if_neg hnil]
    have hpiece : IsPiece (trim text) :=
      ⟨hnil, fun hmem => h (trim_subset text hmem), trim_trim text⟩
    have hbetween : Between [trim text] (front ++ (trim text ++ back)) :=
      .piece hfront hpiece hback
    rwa [← htext] at hbetween

/-- Every text is its own fields with slashes between them. -/
theorem joins_fields (text : List Char) : Joins (fields isSlash text) text := by
  -- By recursion on what is left behind the first slash.
  by_cases hslash : '/' ∈ text
  · obtain ⟨front, back, htext, hfront⟩ := List.eq_append_cons_of_mem hslash
    rw [htext, fields_append_sep (by decide)]
    exact .slash (between_fields hfront) (joins_fields back)
  · exact .last (between_fields hslash)
termination_by text.length
decreasing_by
  rw [htext, List.length_append, List.length_cons]
  omega

/-- The commands of a text are what was joined. -/
theorem joins_iff {ps : List (List Char)} {text : List Char} :
    Joins ps text ↔ fields isSlash text = ps := by
  constructor
  · intro h
    induction h with
    | last h => exact h.fields_eq
    | slash h _ ih => rw [fields_append_sep (by decide), h.fields_eq, ih]
  · rintro rfl
    exact joins_fields text

theorem Between.isPiece {ps : List (List Char)} {text : List Char} (h : Between ps text) :
    ∀ p ∈ ps, IsPiece p ∧ p <:+: text := by
  intro p hp
  cases h with
  | nothing => cases hp
  | @piece front cs back _ hcs =>
    obtain rfl : p = cs := List.mem_singleton.1 hp
    exact ⟨hcs, front, back, List.append_assoc ..⟩

/-- Commands that are joined are pieces of the text. -/
theorem Joins.isPiece {ps : List (List Char)} {text : List Char} (h : Joins ps text) :
    ∀ p ∈ ps, IsPiece p ∧ p <:+: text := by
  induction h with
  | last h => exact h.isPiece
  | @slash ps qs text rest h _ ih =>
    intro p hp
    rcases List.mem_append.1 hp with hp | hp
    · obtain ⟨hpiece, hpart⟩ := h.isPiece p hp
      exact ⟨hpiece, hpart.trans (List.prefix_append _ _).isInfix⟩
    · obtain ⟨hpiece, hpart⟩ := ih p hp
      have hrest : rest <:+ text ++ '/' :: rest := ⟨text ++ ['/'], by simp⟩
      exact ⟨hpiece, hpart.trans hrest.isInfix⟩

theorem shorter_of_append {part whole : String} {front back : List Char} (hfront : front ≠ [])
    (h : whole.toList = front ++ (part.toList ++ back)) :
    part.length < whole.length ∧ part.utf8ByteSize < whole.utf8ByteSize := by
  obtain ⟨c, front, rfl⟩ := List.exists_cons_of_ne_nil hfront
  have hpos : 0 < c.utf8Size := c.utf8Size_pos
  have hwhole : whole = String.ofList (c :: front) ++ (part ++ String.ofList back) := by
    rw [← String.ofList_toList (s := whole), h, String.ofList_append, String.ofList_append,
      String.ofList_toList]
  constructor
  · rw [← String.length_toList, ← String.length_toList, h]
    simp only [List.length_append, List.length_cons]
    omega
  · rw [hwhole, String.utf8ByteSize_append, String.utf8ByteSize_append, utf8ByteSize_ofList_cons]
    omega

namespace Command

variable {defaults : LineDefaults} {now : ClockReading}

/-! ## The commands of a batch -/

theorem commands_ofBatch (text : List Char) :
    (ofBatch text).notes.commands = batchCommands text := by
  unfold ofBatch
  dsimp only
  split
  · rename_i hnil
    exact (List.isEmpty_iff.1 hnil).symm
  · rfl

theorem trim_batch_line (text : List Char) :
    trim ("batch ".toList ++ text) = "batch".toList ++ trimEnd (' ' :: text) := by
  -- The keyword neither begins nor ends with a blank, so only the text behind it is cut.
  have hstart : trimStart ("batch".toList ++ ' ' :: text) = "batch".toList ++ ' ' :: text := by
    show trimStart ([] ++ ("batch".toList ++ ' ' :: text)) = _
    refine trimStart_blanks nofun ?_
    rintro _ ⟨⟩
    decide
  show trimEnd (trimStart ("batch".toList ++ ' ' :: text)) = _
  rw [hstart]
  refine trimEnd_append ?_ _
  rintro _ ⟨⟩
  decide

/-- Any text can stand behind the keyword of a batch. -/
theorem read_batch_line (text : List Char) :
    ∃ inner, Command.read defaults now (String.ofList ("batch ".toList ++ text)) =
      .ok (ofBatch inner) ∧ fields isSlash inner = fields isSlash text := by
  have hline : trim (String.ofList ("batch ".toList ++ text)).toList =
      "batch".toList ++ trimEnd (' ' :: text) := by
    rw [String.toList_ofList, trim_batch_line]
  have hwords : words ("batch".toList ++ trimEnd (' ' :: text)) =
      "batch".toList :: words text := by
    rw [← trim_batch_line, words_trim]
    show words ("batch".toList ++ ' ' :: text) = _
    rw [words_append_blank (by decide), words_eq_singleton (by decide) (not_blank_of_all rfl)]
    rfl
  refine ⟨trim (trimEnd (' ' :: text)), ?_, ?_⟩
  · rw [read_eq_bind (by rw [hline]; simp), hline,
      Head.read_of_claims (k := .batch) hwords (by decide) nofun]
    show Except.ok (ofBatch (trim
      (("batch".toList ++ trimEnd (' ' :: text)).drop "batch".toList.length))) = _
    rw [List.drop_left]
  · obtain ⟨blanks, hb, htrim⟩ := exists_trimEnd_append_blanks (' ' :: text)
    have hspace : ∀ c ∈ [' '], isBlank c = true := List.forall_mem_singleton.2 (by decide)
    rw [fields_trim not_isSlash_of_isBlank,
      ← fields_append_blanks not_isSlash_of_isBlank hb, ← htrim]
    exact fields_blanks_append not_isSlash_of_isBlank hspace text

/-- A batch is read from what stands behind the front of its line, and is that of this text. -/
theorem exists_of_read_batch {line : String} {c : Command}
    (hread : Command.read defaults now line = .ok c) (hkind : c.kind = .batch) :
    ∃ front text, line.toList = front ++ text ∧ front ≠ [] ∧
      c.notes.commands = (fields isSlash text).map String.ofList := by
  have hblank : trim line.toList ≠ [] := by
    intro hblank
    rw [read_of_blank hblank] at hread
    cases hread
    cases hkind
  obtain ⟨first, rest, hwords⟩ := exists_words_trim hblank
  rw [read_eq_bind hblank] at hread
  obtain ⟨head, hhead, hc⟩ := bind_eq_ok_iff.1 hread
  have hbatch : head.kind = .batch := (kind_of_ofHead hc).symm.trans hkind
  -- No other keyword and no line without one makes a batch.
  cases Head.reads_of_read hwords hhead with
  | @keyword k hk =>
    rw [Keyword.kind_head] at hbatch
    cases k with
    | batch =>
      obtain rfl : ofBatch (trim ((trim line.toList).drop first.length)) = c := Except.ok.inj hc
      obtain ⟨hcut, -⟩ := eq_append_of_words_eq_cons (fun _ => isBlank_of_mem_head?_trim) hwords
      obtain ⟨front, back, -, hback, hline⟩ := exists_blanks_trim line.toList
      have hfirst : first ≠ [] := ne_nil_of_mem_words (hwords ▸ List.mem_cons_self)
      refine ⟨front ++ first, (trim line.toList).drop first.length ++ back, ?_, ?_, ?_⟩
      · rw [List.append_assoc, ← List.append_assoc first, ← hcut]
        exact hline
      · exact List.append_ne_nil_of_right_ne_nil _ hfirst
      · rw [commands_ofBatch, batchCommands_eq, fields_trim not_isSlash_of_isBlank,
          fields_append_blanks not_isSlash_of_isBlank hback]
    | _ => cases hbatch
  | _ => cases hbatch

/-- A command in a batch is a piece of its line, and shorter than the line. -/
theorem isPiece_of_mem_commands {line command : String} {c : Command}
    (hread : Command.read defaults now line = .ok c) (hkind : c.kind = .batch)
    (hmem : command ∈ c.notes.commands) :
    IsPiece command.toList ∧ ∃ front back, front ≠ [] ∧
      line.toList = front ++ (command.toList ++ back) := by
  obtain ⟨front, text, hline, hfront, hcommands⟩ := exists_of_read_batch hread hkind
  rw [hcommands] at hmem
  obtain ⟨cs, hcs, rfl⟩ := List.mem_map.1 hmem
  obtain ⟨hpiece, before, after, htext⟩ := (joins_fields text).isPiece cs hcs
  rw [String.toList_ofList]
  refine ⟨hpiece, front ++ before, after, List.append_ne_nil_of_left_ne_nil hfront _, ?_⟩
  rw [hline, ← htext, List.append_assoc, List.append_assoc]

/-- Behind the keyword, commands that are joined are read as a batch of them. -/
theorem exists_read_of_joins {ps : List (List Char)} {text : List Char} (hne : ps ≠ [])
    (hjoins : Joins ps text) :
    ∃ c, Command.read defaults now (String.ofList ("batch ".toList ++ text)) = .ok c ∧
      c.kind = .batch ∧ c.isValid = true ∧ c.notes.commands = ps.map String.ofList := by
  obtain ⟨inner, hread, hinner⟩ := read_batch_line text
  have hcommands : batchCommands inner = ps.map String.ofList := by
    rw [batchCommands_eq, hinner, joins_iff.1 hjoins]
  refine ⟨_, hread, kind_ofBatch inner, ?_, ?_⟩
  · rw [ofBatch, hcommands, if_neg (by simpa using hne)]
  · rw [commands_ofBatch, hcommands]

/-- Without a slash in its line a batch holds one command at most. -/
theorem length_commands_le_one {line : String} {c : Command} (hslash : '/' ∉ line.toList)
    (hread : Command.read defaults now line = .ok c) (hkind : c.kind = .batch) :
    c.notes.commands.length ≤ 1 := by
  obtain ⟨front, text, hline, -, hcommands⟩ := exists_of_read_batch hread hkind
  have htext : '/' ∉ text := fun hmem => hslash (hline ▸ List.mem_append_right front hmem)
  rw [hcommands, List.length_map, fields_of_not_sep (isSlash_eq_false htext)]
  split
  · exact Nat.zero_le 1
  · exact Nat.le_refl 1

/-! ## Batches inside batches -/

/-- The commands of a batch; any other command is left as it is. -/
def opened (defaults : LineDefaults) (now : ClockReading) (c : Command) :
    Except ReadFault (List Command) :=
  if c.kind = .batch then expand defaults now c else .ok [c]

def openRound (defaults : LineDefaults) (now : ClockReading) :
    List Command → Except ReadFault (List Command)
  | [] => .ok []
  | c :: cs => opened defaults now c >>= fun ds =>
    (openRound defaults now cs).map fun rest => ds ++ rest

def openRounds (defaults : LineDefaults) (now : ClockReading) :
    Nat → List Command → Except ReadFault (List Command)
  | 0, cs => .ok cs
  | n + 1, cs => openRound defaults now cs >>= openRounds defaults now n

/-- A batch was read from a part of the text, at most `n` characters long. -/
def ComesFrom (defaults : LineDefaults) (now : ClockReading) (text : List Char) (n : Nat)
    (c : Command) : Prop :=
  c.kind = .batch → ∃ line, Command.read defaults now line = .ok c ∧ line.toList <:+: text ∧
    line.toList.length ≤ n

section Rounds

variable {text : List Char} {n : Nat} {c : Command} {cs ds : List Command}

theorem expand_of_batch (hkind : c.kind = .batch) :
    expand defaults now c = c.notes.commands.mapM (Command.read defaults now) :=
  if_pos hkind

/-- The commands of a batch are parts of its text too, and shorter than its line. -/
theorem ComesFrom.command (h : ComesFrom defaults now text n c) (hkind : c.kind = .batch)
    {command : String} (hmem : command ∈ c.notes.commands) :
    command.toList <:+: text ∧ command.toList.length < n := by
  obtain ⟨line, hread, hpart, hlen⟩ := h hkind
  obtain ⟨-, front, back, hfront, hline⟩ := isPiece_of_mem_commands hread hkind hmem
  have hpos : 0 < front.length := List.length_pos_iff.2 hfront
  have hsize := congrArg List.length hline
  rw [List.length_append, List.length_append] at hsize
  constructor
  · exact List.IsInfix.trans ⟨front, back, by rw [hline, List.append_assoc]⟩ hpart
  · omega

/-- Opening batches uses up characters of the text. -/
theorem ComesFrom.of_openRound (hcs : ∀ c ∈ cs, ComesFrom defaults now text (n + 1) c)
    (h : openRound defaults now cs = .ok ds) : ∀ d ∈ ds, ComesFrom defaults now text n d := by
  induction cs generalizing ds with
  | nil =>
    cases h
    exact fun d hd => absurd hd List.not_mem_nil
  | cons c cs ih =>
    obtain ⟨hc, htail⟩ := List.forall_mem_cons.1 hcs
    rw [openRound] at h
    obtain ⟨inner, hinner, h⟩ := bind_eq_ok_iff.1 h
    obtain ⟨rest, hrest, rfl⟩ := map_eq_ok_iff.1 h
    intro d hd
    rcases List.mem_append.1 hd with hd | hd
    -- What was opened is shorter than its batch; what was left as it is is no batch.
    · unfold opened at hinner
      by_cases hkind : c.kind = .batch
      · rw [if_pos hkind, expand_of_batch hkind] at hinner
        obtain ⟨command, hmem, hread⟩ := exists_of_mem_mapM hinner hd
        obtain ⟨hpart, hlen⟩ := hc.command hkind hmem
        exact fun _ => ⟨command, hread, hpart, by omega⟩
      · rw [if_neg hkind] at hinner
        cases hinner
        obtain rfl : d = c := List.mem_singleton.1 hd
        exact fun h => absurd h hkind
    · exact ih htail hrest d hd

theorem exists_of_openRound_error {fault : ReadFault}
    (hcs : ∀ c ∈ cs, ComesFrom defaults now text n c)
    (h : openRound defaults now cs = .error fault) :
    ∃ command : String, command.toList <:+: text ∧
      Command.read defaults now command = .error fault := by
  induction cs with
  | nil => cases h
  | cons c cs ih =>
    obtain ⟨hc, htail⟩ := List.forall_mem_cons.1 hcs
    rw [openRound] at h
    rcases bind_eq_error_iff.1 h with h | ⟨inner, -, h⟩
    · unfold opened at h
      by_cases hkind : c.kind = .batch
      · rw [if_pos hkind] at h
        obtain ⟨-, before, command, after, hcommands, -, hread⟩ := expand_eq_error_iff.1 h
        have hmem : command ∈ c.notes.commands := by
          rw [hcommands]
          exact List.mem_append_right before List.mem_cons_self
        exact ⟨command, (hc.command hkind hmem).1, hread⟩
      · rw [if_neg hkind] at h
        cases h
    · exact ih htail (map_eq_error_iff.1 h)

/-- Every round shortens the lines of the batches that are left, so after `n` rounds there is no
line for another one. -/
theorem openRounds_of_comesFrom (hcs : ∀ c ∈ cs, ComesFrom defaults now text n c) :
    (∃ ds, openRounds defaults now n cs = .ok ds ∧ ∀ d ∈ ds, d.kind ≠ .batch) ∨
    ∃ (command : String) (fault : ReadFault), command.toList <:+: text ∧
      Command.read defaults now command = .error fault ∧
      openRounds defaults now n cs = .error fault := by
  induction n generalizing cs with
  | zero =>
    -- A batch would have been read from an empty line.
    refine Or.inl ⟨cs, rfl, fun c hc hkind => ?_⟩
    obtain ⟨line, hread, -, hlen⟩ := hcs c hc hkind
    have hnil : line.toList = [] := List.length_eq_zero_iff.1 (by omega)
    rw [read_of_blank (by rw [hnil]; rfl)] at hread
    cases hread
    cases hkind
  | succ n ih =>
    unfold openRounds
    cases hround : openRound defaults now cs with
    | ok ds => exact ih (ComesFrom.of_openRound hcs hround)
    | error fault =>
      obtain ⟨command, hpart, hread⟩ := exists_of_openRound_error hcs hround
      exact Or.inr ⟨command, fault, hpart, hread, rfl⟩

end Rounds

/-- Commands that are joined into a batch are its commands again, and opening the batch reads them
one by one. What a batch holds is shorter than its line, so batches inside batches come to an end
unless a part of the line cannot be read. -/
theorem batch_holds_joined (defaults : LineDefaults) (now : ClockReading) :
    (∀ ps text, ps ≠ [] → Joins ps text →
      ∃ c, Command.read defaults now (String.ofList ("batch ".toList ++ text)) = .ok c ∧
        c.kind = .batch ∧ c.isValid = true ∧ c.notes.commands = ps.map String.ofList ∧
        ∀ cs, expand defaults now c = .ok cs ↔ List.Forall₂
          (fun p d => Command.read defaults now (String.ofList p) = .ok d) ps cs) ∧
    ∀ line c, Command.read defaults now line = .ok c → c.kind = .batch →
      (∀ command ∈ c.notes.commands, IsPiece command.toList ∧
        command.length < line.length ∧ command.utf8ByteSize < line.utf8ByteSize) ∧
      (∀ cs, expand defaults now c = .ok cs → ∀ d ∈ cs, d.kind = .batch →
        d.notes.commands.length ≤ 1) ∧
      ∀ n, line.length ≤ n →
        (∃ ds, openRounds defaults now n [c] = .ok ds ∧ ∀ d ∈ ds, d.kind ≠ .batch) ∨
        ∃ (command : String) (fault : ReadFault), command.toList <:+: line.toList ∧
          Command.read defaults now command = .error fault ∧
          openRounds defaults now n [c] = .error fault := by
  refine ⟨fun ps text hne hjoins => ?_, fun line c hread hkind => ⟨?_, ?_, ?_⟩⟩
  · obtain ⟨c, hread, hbatch, hvalid, hcommands⟩ := exists_read_of_joins hne hjoins
    refine ⟨c, hread, hbatch, hvalid, hcommands, fun cs => ?_⟩
    rw [expand_of_batch hbatch, hcommands, mapM_eq_ok_iff, List.forall₂_map_left_iff]
  · intro command hmem
    obtain ⟨hpiece, front, back, hfront, hline⟩ := isPiece_of_mem_commands hread hkind hmem
    obtain ⟨hlen, hsize⟩ := shorter_of_append hfront hline
    exact ⟨hpiece, hlen, hsize⟩
  · intro cs hexpand d hd hbatch
    rw [expand_of_batch hkind] at hexpand
    obtain ⟨command, hmem, hcommand⟩ := exists_of_mem_mapM hexpand hd
    -- A piece holds no slash, and a line without one is a batch of one command at most.
    obtain ⟨hpiece, -⟩ := isPiece_of_mem_commands hread hkind hmem
    exact length_commands_le_one hpiece.no_slash hcommand hbatch
  · intro n hn
    refine openRounds_of_comesFrom fun d hd => ?_
    obtain rfl : d = c := List.mem_singleton.1 hd
    exact fun _ => ⟨line, hread, List.infix_rfl, by rwa [String.length_toList]⟩

theorem batch_holds_batch :
    Joins ["blk 9-10".toList, "batch a-5".toList] " blk 9-10 // batch a-5 ".toList ∧
      ∃ c, Command.read {} ⟨8, 10, 0⟩ "batch  blk 9-10 // batch a-5 " = .ok c ∧
        c.notes.commands = ["blk 9-10", "batch a-5"] ∧
        ∃ ds, openRounds {} ⟨8, 10, 0⟩ 29 [c] = .ok ds ∧ ∀ d ∈ ds, d.kind ≠ .batch := by
  have hjoins : Joins ["blk 9-10".toList, "batch a-5".toList] " blk 9-10 // batch a-5 ".toList :=
    joins_iff.2 (by decide)
  have hline : String.ofList ("batch ".toList ++ " blk 9-10 // batch a-5 ".toList) =
      "batch  blk 9-10 // batch a-5 " := by decide
  obtain ⟨hread, hbatch⟩ := batch_holds_joined {} ⟨8, 10, 0⟩
  obtain ⟨c, hc, hkind, -, hcommands, -⟩ := hread _ _ (by decide) hjoins
  rw [hline] at hc
  obtain ⟨-, -, hrounds⟩ := hbatch _ c hc hkind
  refine ⟨hjoins, c, hc, hcommands, (hrounds 29 (by decide)).resolve_right ?_⟩
  rintro ⟨command, fault, hpart, hfault, -⟩
  -- All digits of the line are of ASCII, so every part of it can be read.
  have hdigits : ∀ x ∈ "batch  blk 9-10 // batch a-5 ".toList, isDecimal x = true →
      x.isDigit = true := by
    have hall : "batch  blk 9-10 // batch a-5 ".toList.all
        (fun x => !isDecimal x || x.isDigit) = true := by decide
    intro x hx hdec
    simpa [hdec] using List.all_eq_true.1 hall x hx
  obtain ⟨d, hd⟩ := exists_read_of_isDigit fun x hx => hdigits x (hpart.subset hx)
  rw [hd] at hfault
  cases hfault

end Command

end Shorthand
