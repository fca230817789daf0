import Shorthand.Proofs.Command.Dispatch
import Shorthand.Proofs.Command.WellFormed
import Shorthand.Proofs.Text.Spacing

/-!
Blanks. Lines of the same words are read word by word alike; the texts that a command keeps as they
stand in the line differ in their blanks only. `Command.read_spacing` says so, and finds the one
place where blanks count: a task without a keyword is not cut from its minutes across a line end.
-/

namespace Shorthand

open Text

/-! ## Heads -/

inductive Head.Respaced : Head → Head → Prop
  | refl (head : Head) : Respaced head head
  | batch {x y : List Char} (h : words x = words y) : Respaced (.batch x) (.batch y)
  | assistant {x y : List Char} (h : words x = words y) : Respaced (.assistant x) (.assistant y)
  | plain {x y : List Char} (h : words x = words y) : Respaced (.plain x) (.plain y)

namespace Head

variable {x y : List Char}

/-- The line without the slashes in front of its question. -/
theorem words_slashQuery (hx : ∀ c ∈ x.head?, isBlank c = false)
    (hy : ∀ c ∈ y.head?, isBlank c = false) (h : words x = words y) (first : List Char)
    (rest : List (List Char)) :
    words (slashQuery x first rest) = words (slashQuery y first rest) := by
  have hslash : ∀ c, isBlank c = true → decide (c = '/') = false :=
    fun c hc => decide_eq_false (beq_eq_false_iff_ne.1 (not_isSlash_of_isBlank c hc))
  unfold slashQuery
  by_cases hfirst : first = ['/']
  · rw [if_pos hfirst, if_pos hfirst]
  · rw [if_neg hfirst, if_neg hfirst, words_trim, words_trim]
    exact words_dropWhile hslash hx hy h

/-- A batch keeps the text behind its keyword; any other head keeps words. -/
theorem respaced_head {first : List Char} {rest : List (List Char)}
    (hx : ∀ c ∈ x.head?, isBlank c = false) (hy : ∀ c ∈ y.head?, isBlank c = false)
    (hxw : words x = first :: rest) (hyw : words y = first :: rest) (k : Keyword) :
    (k.head (x.drop first.length) rest).Respaced (k.head (y.drop first.length) rest) := by
  by_cases hk : k = .batch
  · obtain rfl := hk
    show Respaced (.batch (trim (x.drop first.length))) (.batch (trim (y.drop first.length)))
    apply Respaced.batch
    rw [words_trim, words_trim, ← (eq_append_of_words_eq_cons hx hxw).2,
      ← (eq_append_of_words_eq_cons hy hyw).2]
  · rw [Keyword.head_eq_head hk (x.drop first.length) (y.drop first.length)]
    exact .refl _

theorem respaced_read (now : ClockReading) (hx : ∀ c ∈ x.head?, isBlank c = false)
    (hy : ∀ c ∈ y.head?, isBlank c = false) (h : words x = words y) :
    Agree Respaced (Head.read now x) (Head.read now y) := by
  unfold Head.read
  rw [h]
  cases hyw : words y with
  | nil => exact .ok (.plain h)
  | cons first rest =>
    have hxw : words x = first :: rest := h.trans hyw
    dsimp only
    -- The two lines part where their text is kept, and nowhere else.
    by_cases hplus : (Shape.after? ['n', 'o', 'w', '+'] (lower first)).isSome = true
    · rw [if_pos hplus, if_pos hplus]
      cases resolves now (lower first) with
      | error fault => exact .error fault
      | ok r =>
        cases r with
        | false => exact .ok (.plain h)
        | true => exact .ok (.refl _)
    · rw [if_neg hplus, if_neg hplus]
      by_cases hslash : (lower first).head? = some '/'
      · rw [if_pos hslash, if_pos hslash]
        exact .ok (.assistant (words_slashQuery hx hy h first rest))
      · rw [if_neg hslash, if_neg hslash]
        cases Keyword.ofName? (String.ofList (lower first)) with
        | none => exact .ok (.plain h)
        | some k =>
          dsimp only
          cases k.claims now rest with
          | error fault => exact .error fault
          | ok c =>
            cases c with
            | false => exact .ok (.plain h)
            | true => exact .ok (respaced_head hx hy hxw hyw k)

end Head

/-! ## Tasks -/

namespace Task

/-- The words of a name are the words of the text it comes from, whatever stands between them. -/
theorem nameOf_eq_of_words_eq {x y : List Char} (h : words x = words y) : nameOf x = nameOf y := by
  have hblank : ∀ c, isBlank c = true → isBlank (if c = '-' then ' ' else c) = true := by
    intro c hc
    split
    · decide
    · exact hc
  rw [nameOf, words_map hblank h, nameOf]

/-- Hyphens are read as blanks in the name of a task. -/
theorem hyphen_not_mem_nameOf (cs : List Char) : '-' ∉ nameOf cs := by
  intro hmem
  rcases mem_joinWith hmem with hspace | ⟨w, hw, hc⟩
  · exact absurd hspace (by decide)
  · obtain ⟨c, -, hc⟩ := List.mem_map.1 (mem_of_mem_words hw hc)
    split at hc
    · cases hc
    · rename_i hne
      exact hne hc

structure Respaced (t u : Task) : Prop where
  name : words t.name.toList = words u.name.toList
  minutes : t.minutes = u.minutes
  order : t.order = u.order

theorem Respaced.symm {t u : Task} (h : t.Respaced u) : u.Respaced t :=
  ⟨h.name.symm, h.minutes.symm, h.order.symm⟩

theorem Respaced.refl (t : Task) : t.Respaced t := ⟨rfl, rfl, rfl⟩

end Task

/-- The one text ends in its minutes and the other is broken by a line end, so that the minutes are
found in the first only. -/
def LosesMinutes (x y : List Char) : Prop := (∃ front n, EndsInMinutes x front n) ∧ '\n' ∈ y

namespace EndsInMinutes

variable {x y front front' : List Char} {m n : Nat}

/-- A text on one line ends in the minutes that a text of the same words ends in. -/
theorem respaced (h : EndsInMinutes x front n) (hline : '\n' ∉ y)
    (hlast : ∀ c ∈ y.getLast?, isBlank c = false) (hwords : words x = words y) :
    ∃ front', EndsInMinutes y front' n ∧ Task.nameOf front' = Task.nameOf front := by
  obtain ⟨-, ⟨digits, rfl, hdigits⟩, hpos, hle, hname⟩ := h
  have hv : ∀ c ∈ '-' :: digits, isBlank c = false := by
    intro c hc
    rcases List.mem_cons.1 hc with rfl | hc
    · decide
    · exact isBlank_of_isDecimal (hdigits.isDecimal c hc)
  obtain ⟨front', rfl, hfront⟩ :=
    exists_append_of_words_eq (List.cons_ne_nil _ _) hv hlast hwords
  have hsame := Task.nameOf_eq_of_words_eq hfront
  exact ⟨front', ⟨hline, ⟨digits, rfl, hdigits⟩, hpos, hle, by rwa [hsame]⟩, hsame⟩

/-- A text ends in its minutes in one way. -/
theorem unique (h : EndsInMinutes x front m) (h' : EndsInMinutes x front' n) :
    Task.nameOf front = Task.nameOf front' ∧ m = n := by
  have htask := (Command.parts_eq_some_iff.2 ⟨front, m, h, rfl⟩).symm.trans
    (Command.parts_eq_some_iff.2 ⟨front', n, h', rfl⟩)
  have hboth : String.ofList (Task.nameOf front) = String.ofList (Task.nameOf front') ∧ m = n := by
    simpa using htask
  exact ⟨String.ofList_injective hboth.1, hboth.2⟩

/-- Of two lines of the same words one loses its minutes exactly if a line end stands in it. -/
theorem losesMinutes_or_iff (h : EndsInMinutes x front n) :
    LosesMinutes x y ∨ LosesMinutes y x ↔ '\n' ∈ y := by
  -- The text itself is on one line, so it is not what breaks the other.
  have hback : ¬ LosesMinutes y x := fun hloses => h.1 hloses.2
  rw [or_iff_left hback]
  exact ⟨fun hloses => hloses.2, fun hline => ⟨⟨front, n, h⟩, hline⟩⟩

/-- No name has the words of a text that ends in its minutes: one of them has a hyphen. -/
theorem words_nameOf_ne (h : EndsInMinutes x front n) (hwords : words x = words y)
    (cs : List Char) : words (Task.nameOf cs) ≠ words y := by
  intro hname
  obtain ⟨-, ⟨digits, hx, -⟩, -⟩ := h
  have hmem : '-' ∈ (words x).flatten := by
    rw [flatten_words, List.mem_filter, hx]
    exact ⟨List.mem_append_right _ List.mem_cons_self, by decide⟩
  rw [hwords, ← hname, flatten_words] at hmem
  exact Task.hyphen_not_mem_nameOf cs (List.mem_filter.1 hmem).1

end EndsInMinutes

namespace PlainTask

variable {defaults : LineDefaults} {x y : List Char} {t u : Task}

/-- A task that is cut from its minutes, and the task that a text of the same words is: they differ
unless that text is cut from its minutes too. -/
theorem respaced_iff_of_timed {front : List Char} {n : Nat} (hx : EndsInMinutes x front n)
    (hu : PlainTask defaults y u) (hlast : ∀ c ∈ y.getLast?, isBlank c = false)
    (hwords : words x = words y) :
    ({ name := String.ofList (Task.nameOf front), minutes := n } : Task).Respaced u ↔
      '\n' ∉ y := by
  cases hu with
  | @timed front' m hy =>
    obtain ⟨front'', hy', hname⟩ := hx.respaced hy.1 hlast hwords
    obtain ⟨hname', rfl⟩ := hy'.unique hy
    rw [← hname, hname']
    exact iff_of_true ⟨rfl, rfl, rfl⟩ hy.1
  | whole hy =>
    constructor
    · intro h
      have hname := h.name
      rw [String.toList_ofList, String.toList_ofList] at hname
      exact absurd hname (hx.words_nameOf_ne hwords front)
    · intro hline
      obtain ⟨front', hy', -⟩ := hx.respaced hline hlast hwords
      exact absurd hy' (hy front' n)

/-- Plain lines of the same words are the same task up to blanks, unless one of them loses its
minutes. -/
theorem respaced_iff (ht : PlainTask defaults x t) (hu : PlainTask defaults y u)
    (hx : ∀ c ∈ x.getLast?, isBlank c = false) (hy : ∀ c ∈ y.getLast?, isBlank c = false)
    (hwords : words x = words y) :
    t.Respaced u ↔ ¬ (LosesMinutes x y ∨ LosesMinutes y x) := by
  cases ht with
  | timed h => rw [respaced_iff_of_timed h hu hy hwords, h.losesMinutes_or_iff]
  | whole h =>
    cases hu with
    | timed h' =>
      rw [or_comm, h'.losesMinutes_or_iff, ← respaced_iff_of_timed h' (.whole h) hx hwords.symm]
      exact ⟨.symm, .symm⟩
    | whole h' =>
      have hnone : ¬ (LosesMinutes x y ∨ LosesMinutes y x) := by
        rintro (⟨⟨front, n, hends⟩, -⟩ | ⟨⟨front, n, hends⟩, -⟩)
        · exact h front n hends
        · exact h' front n hends
      refine iff_of_true ⟨?_, rfl, rfl⟩ hnone
      rwa [String.toList_ofList, String.toList_ofList]

end PlainTask

/-! ## Commands -/

/-- Two commands that agree, apart from their tasks, in all but the blanks between the words of
their texts; they have as many tasks, in the same places in the order. -/
structure Command.Respaced (c d : Command) : Prop where
  kind : c.kind = d.kind
  subtype : c.subtype = d.subtype
  slot : c.slot = d.slot
  isValid : c.isValid = d.isValid
  hint : c.hint = d.hint
  flags : c.notes.flags = d.notes.flags
  attendees : c.attendees = d.attendees
  title : c.notes.title = d.notes.title
  orders : c.tasks.map Task.order = d.tasks.map Task.order
  query : c.notes.query.map (fun text => words text.toList) =
    d.notes.query.map fun text => words text.toList
  commands : c.notes.commands.map (fun text => words text.toList) =
    d.notes.commands.map fun text => words text.toList

def Unclaimed (now : ClockReading) (ws : List (List Char)) : Prop :=
  ∃ first rest, ws = first :: rest ∧ ∀ kind, ¬ Claims now (lower first) rest.head? kind

namespace Command

variable {defaults : LineDefaults} {now : ClockReading} {x y : List Char}

theorem Respaced.refl (c : Command) : c.Respaced c :=
  ⟨rfl, rfl, rfl, rfl, rfl, rfl, rfl, rfl, rfl, rfl, rfl⟩

def SameReading (c d : Command) : Prop :=
  c.Respaced d ∧ List.Forall₂ Task.Respaced c.tasks d.tasks

theorem SameReading.refl (c : Command) : SameReading c c :=
  ⟨.refl c, List.forall₂_same.2 fun t _ => .refl t⟩

/-- Texts of the same words hold batches of the same words. -/
theorem map_words_batchCommands (h : words x = words y) :
    (batchCommands x).map (fun text => words text.toList) =
      (batchCommands y).map fun text => words text.toList := by
  have hfields : ∀ z, (batchCommands z).map (fun text => words text.toList) =
      (fields isSlash z).map words := by
    intro z
    rw [batchCommands_eq, List.map_map]
    exact List.map_congr_left fun w _ => by rw [Function.comp_apply, String.toList_ofList]
  rw [hfields, hfields, map_words_fields not_isSlash_of_isBlank h]

theorem sameReading_ofBatch (h : words x = words y) : SameReading (ofBatch x) (ofBatch y) := by
  have hcommands := map_words_batchCommands h
  have hempty : (batchCommands x).isEmpty = (batchCommands y).isEmpty := by
    rw [← List.isEmpty_map, hcommands, List.isEmpty_map]
  unfold ofBatch
  dsimp only
  rw [hempty]
  by_cases hnone : (batchCommands y).isEmpty = true
  · rw [if_pos hnone, if_pos hnone]
    exact .refl _
  · rw [if_neg hnone, if_neg hnone]
    exact ⟨⟨rfl, rfl, rfl, rfl, rfl, rfl, rfl, rfl, rfl, rfl, hcommands⟩, .nil⟩

theorem sameReading_ofQuery (h : words x = words y) : SameReading (ofQuery x) (ofQuery y) := by
  have hquery : words (String.ofList x).toList = words (String.ofList y).toList := by
    rwa [String.toList_ofList, String.toList_ofList]
  exact ⟨⟨rfl, rfl, rfl, rfl, rfl, rfl, rfl, rfl, rfl, congrArg some hquery, rfl⟩, .nil⟩

/-- Two plain lines are one task each; what the tasks have in common hangs on the line ends. -/
theorem respaced_ofPlain (defaults : LineDefaults) (hx : ∀ c ∈ x.getLast?, isBlank c = false)
    (hy : ∀ c ∈ y.getLast?, isBlank c = false) (h : words x = words y) :
    (ofPlain defaults x).Respaced (ofPlain defaults y) ∧
      (List.Forall₂ Task.Respaced (ofPlain defaults x).tasks (ofPlain defaults y).tasks ↔
        ¬ (LosesMinutes x y ∨ LosesMinutes y x)) := by
  obtain ⟨t, ht, hplain⟩ := exists_plainTask defaults x
  obtain ⟨u, hu, hplain'⟩ := exists_plainTask defaults y
  have horder : t.order = u.order := by
    cases hplain <;> cases hplain' <;> rfl
  rw [ht, hu]
  constructor
  · exact ⟨rfl, rfl, rfl, rfl, rfl, rfl, rfl, rfl, congrArg (fun o => [o]) horder, rfl, rfl⟩
  · rw [← hplain.respaced_iff hplain' hx hy h]
    show List.Forall₂ Task.Respaced [t] [u] ↔ t.Respaced u
    rw [List.forall₂_cons]
    exact and_iff_left .nil

/-- Heads that differ in blanks make commands that do, or both are plain. -/
theorem sameReading_ofHead (defaults : LineDefaults) (now : ClockReading) {head head' : Head}
    (h : head.Respaced head') (hplain : ∀ text, head ≠ .plain text) :
    Agree SameReading (ofHead defaults now head) (ofHead defaults now head') := by
  cases h with
  | refl => exact .refl .refl _
  | batch h => exact .ok (sameReading_ofBatch h)
  | assistant h => exact .ok (sameReading_ofQuery h)
  | @plain x _ => exact absurd rfl (hplain x)

/-- Blanks carry no meaning but in one place: a line without a keyword that ends in its minutes is a
task of that name and length on one line, and a task of its whole text when a line end stands
between its words. Otherwise lines of the same words fail alike or make commands that differ in the
blanks of their texts only. -/
theorem read_spacing (defaults : LineDefaults) (now : ClockReading) {line line' : String}
    (h : words line.toList = words line'.toList) :
    Agree (fun c d => c.Respaced d ∧ (List.Forall₂ Task.Respaced c.tasks d.tasks ↔
        ¬ (Unclaimed now (words line.toList) ∧
          (LosesMinutes (trim line.toList) (trim line'.toList) ∨
            LosesMinutes (trim line'.toList) (trim line.toList)))))
      (Command.read defaults now line) (Command.read defaults now line') := by
  have hwords : words (trim line.toList) = words (trim line'.toList) := by
    rw [words_trim, words_trim, h]
  have hboth : trim line.toList = [] ↔ trim line'.toList = [] := by
    rw [← words_eq_nil_iff, h, words_eq_nil_iff]
  rw [← words_trim line.toList]
  by_cases hblank : trim line.toList = []
  · rw [read_of_blank hblank, read_of_blank (hboth.1 hblank), hblank]
    refine .ok ⟨.refl _, iff_of_true .nil ?_⟩
    rintro ⟨⟨first, rest, hnil, -⟩, -⟩
    cases hnil
  · obtain ⟨first, rest, hx⟩ := exists_words_trim hblank
    have hheads := Head.respaced_read now (fun _ => isBlank_of_mem_head?_trim)
      (fun _ => isBlank_of_mem_head?_trim) hwords
    rw [read_eq_bind hblank, read_eq_bind (mt hboth.2 hblank)]
    generalize hhead : Head.read now (trim line.toList) = r at hheads
    generalize hhead' : Head.read now (trim line'.toList) = r' at hheads
    cases hheads with
    | error fault => exact .error fault
    | @ok head head' hrespaced =>
      have hreads := Head.reads_of_read hx hhead
      have hreads' := Head.reads_of_read (hwords.symm.trans hx) hhead'
      show Agree _ (ofHead defaults now head) (ofHead defaults now head')
      by_cases hplain : ∃ text, head = .plain text
      · -- Nothing claims either line, so each of them is read as a whole.
        obtain ⟨text, rfl⟩ := hplain
        have hnone := hreads.unclaimed
        rw [(hreads.claims_or_plain.resolve_left (hnone _)).1,
          (hreads'.claims_or_plain.resolve_left (hnone _)).1]
        obtain ⟨hcommand, htasks⟩ := respaced_ofPlain defaults
          (fun _ => isBlank_of_mem_getLast?_trim) (fun _ => isBlank_of_mem_getLast?_trim) hwords
        have hunclaimed : Unclaimed now (words (trim line.toList)) := ⟨first, rest, hx, hnone⟩
        refine .ok ⟨hcommand, htasks.trans (not_congr ?_)⟩
        exact (and_iff_right hunclaimed).symm
      · have hclaims := hreads.claims_or_plain.resolve_right fun h => hplain ⟨_, h.1⟩
        have hclaimed : ¬ Unclaimed now (words (trim line.toList)) := by
          rintro ⟨first', rest', hwords', hnone⟩
          obtain ⟨rfl, rfl⟩ := List.cons.inj (hx.symm.trans hwords')
          exact hnone _ hclaims
        have hsame := sameReading_ofHead defaults now hrespaced
          fun text htext => hplain ⟨text, htext⟩
        exact hsame.mono fun c d hcd => ⟨hcd.1, iff_of_true hcd.2 fun h => hclaimed h.1⟩

theorem read_spacing_of_batch :
    words " batch  blk\n9-11 /\tnext".toList = words "batch blk 9-11 / next ".toList ∧
      ∃ c d, Command.read {} ⟨8, 10, 0⟩ " batch  blk\n9-11 /\tnext" = .ok c ∧
        Command.read {} ⟨8, 10, 0⟩ "batch blk 9-11 / next " = .ok d ∧
        c.notes.commands = ["blk\n9-11", "next"] ∧ d.notes.commands = ["blk 9-11", "next"] ∧
        c.Respaced d := by
  have hwords : words " batch  blk\n9-11 /\tnext".toList =
      words "batch blk 9-11 / next ".toList := by decide
  have hread : Command.read {} ⟨8, 10, 0⟩ " batch  blk\n9-11 /\tnext" =
      .ok (ofBatch "blk\n9-11 /\tnext".toList) := by decide
  have hread' : Command.read {} ⟨8, 10, 0⟩ "batch blk 9-11 / next " =
      .ok (ofBatch "blk 9-11 / next".toList) := by decide
  have hagree := read_spacing {} ⟨8, 10, 0⟩ hwords
  rw [hread, hread'] at hagree
  cases hagree with
  | ok h => exact ⟨hwords, _, _, hread, hread', by decide, by decide, h.1⟩

/-- The same words with a line end and with a space between them. -/
theorem read_book_on_two_lines :
    words "read\nbook-45".toList = words "read book-45".toList ∧
      Command.read {} ⟨8, 10, 0⟩ "read\nbook-45" =
        .ok (ofTask { name := "read\nbook-45", minutes := 30 }) ∧
      Command.read {} ⟨8, 10, 0⟩ "read book-45" =
        .ok (ofTask { name := "read book", minutes := 45 }) := by
  decide

end Command

end Shorthand
