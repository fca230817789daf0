import Shorthand.Proofs.Settings.File
import Shorthand.Proofs.Settings.Written
import Shorthand.Proofs.Yaml.Block

/-!
Settings read back from a file. `Settings.recovered_from_file` says that saved settings are loaded
again, and that a file loads the defaults, overridden by what is written in it.
-/

namespace Shorthand

open Text Yaml

namespace Settings

variable {text : String} {ws : List Setting}

/-! ## Texts -/

/-- The text of a file writes these settings: it is a block document, or whatever else is read as
entries that write them. -/
inductive TextWrites (text : String) (ws : List Setting) : Prop
  | block {es : List (Node × Node)} (hallowed : text.toList.all isAllowed = true)
      (hblock : BlockDocument (unifyBreaks text.toList) es)
      (h : WritesSettings (.ofRoot (.mapping {} es)) es ws)
  | document {d : Document} {es : List (Node × Node)} (hread : read text = .ok (some d))
      (hroot : entries? d d.root = some es) (h : WritesSettings d es ws)

namespace TextWrites

theorem ofText (h : TextWrites text ws) : Settings.ofText text = .ok (overridden ws) := by
  cases h with
  | block hallowed hblock h =>
    rcases read_blockDocument hallowed hblock with hread | ⟨hread, rfl⟩
    · simp only [Settings.ofText, hread]
      exact ofDocument_of_writes rfl h
    · cases h
      simp only [Settings.ofText, hread]
      rfl
  | document hread hroot h =>
    simp only [Settings.ofText, hread]
    exact ofDocument_of_writes hroot h

theorem nodup_keys (h : TextWrites text ws) : (ws.map Setting.key).Nodup := by
  cases h with
  | block hallowed hblock h => exact h.nodup_keys
  | document hread hroot h => exact h.nodup_keys

end TextWrites

/-! ## The text that is saved -/

def all (s : Settings) : List Setting :=
  [.form s.form, .colour s.colour, .blockMinutes s.line.blockMinutes,
    .taskMinutes s.line.taskMinutes, .completionLimit s.completionLimit]

/-- All settings of a record, put over the defaults, are the record. -/
theorem overridden_all (s : Settings) : overridden s.all = s := rfl

/-- A digit means nothing in YAML. -/
theorem ordinary_of_isDigit {c : Char} (h : c.isDigit = true) :
    isSpace c = false ∧ isBreak c = false ∧ isIndicator c = false ∧ c ≠ '.' ∧ c ≠ '\uFEFF' := by
  have hne : ∀ x : Char, x.isDigit = false → c ≠ x := by
    rintro x hx rfl
    rw [h] at hx
    cases hx
  refine ⟨?_, ?_, ?_, hne _ rfl, hne _ rfl⟩
  · simp [isSpace, hne _ (show Char.isDigit ' ' = false from rfl),
      hne _ (show Char.isDigit '\t' = false from rfl)]
  · simp [isBreak, hne _ (show Char.isDigit '\n' = false from rfl),
      hne _ (show Char.isDigit '\u2028' = false from rfl),
      hne _ (show Char.isDigit '\u2029' = false from rfl)]
  · have hmarks : ∀ x ∈ [',', '[', ']', '\x7b', '\x7d', '-', '?', ':', '#', '&', '*', '!', '|', '>',
        '\'', '"', '%', '@', '\x60'], x.isDigit = false := by
      simp
    have hall := fun x hx => hne x (hmarks x hx)
    simp at hall
    simp [isIndicator, isFlowIndicator, hall]

theorem continuesPlain_of_isDigit {cs : List Char} (h : ∀ c ∈ cs, c.isDigit = true) :
    continuesPlain false cs = true := by
  induction cs with
  | nil => rfl
  | cons c cs ih =>
    obtain ⟨hc, hcs⟩ := List.forall_mem_cons.1 h
    obtain ⟨hspace, hbreak, hind, -⟩ := ordinary_of_isDigit hc
    have hcolon : c ≠ ':' := by
      rintro rfl
      cases hind
    simp [continuesPlain, hspace, hbreak, hcolon, ih hcs]

theorem isPlain_digits (n : Nat) : isPlain (digits n) = true := by
  have hdigit : ∀ c ∈ digits n, c.isDigit = true := fun c => isDigit_of_mem_digits
  have hcontinues := continuesPlain_of_isDigit hdigit
  cases hcs : digits n with
  | nil => exact absurd hcs (digits_ne_nil n)
  | cons c cs =>
    rw [hcs] at hdigit hcontinues
    obtain ⟨hspace, hbreak, hind, hdot, hbom⟩ :=
      ordinary_of_isDigit (hdigit c (List.mem_cons_self ..))
    have hdash : c ≠ '-' := by
      rintro rfl
      cases hind
    refine isPlain_iff.2 ⟨?_, hcontinues, ?_, ?_⟩
    · simp [startsPlain, hspace, hbreak, hind]
    · simp [startsMark, hdash, hdot]
    · simpa using hbom

/-- A key and its value on a line. -/
theorem blockText_line {k : Nat} {goal : Option Nat} {key value fill : List Char}
    (hkey : isPlain key = true) (hlength : (String.ofList key).utf8ByteSize ≤ maxKeyBytes)
    (hvalue : isPlain value = true) (hfill : Idle goal .token fill) :
    BlockText k goal (key ++ ':' :: ' ' :: (value ++ fill))
      [(.ofText .plain key, .ofText .plain value)] := by
  have hspells : SpellsKey .plain key (key ++ ([] ++ [':'])) := .mk (.plain hkey) nofun (by simpa)
  have hgap : LeadsIn k [' '] := .blanks (List.forall_mem_singleton.2 rfl)
  have hline := BlockText.scalar hspells hgap (.plain hvalue) hfill
  simpa using hline

/-- A key with a mapping on the lines below. -/
theorem blockText_section {goal : Option Nat} {key cs : List Char} {es : List (Node × Node)}
    (hkey : isPlain key = true) (hlength : (String.ofList key).utf8ByteSize ≤ maxKeyBytes)
    (h : BlockText 2 goal cs es) :
    BlockText 0 goal (key ++ ':' :: '\n' :: ' ' :: ' ' :: cs)
      [(.ofText .plain key, .mapping {} es)] := by
  have hspells : SpellsKey .plain key (key ++ ([] ++ [':'])) := .mk (.plain hkey) nofun (by simpa)
  have hgap : Idle (some 2) .token ['\n', ' ', ' '] :=
    .lineBreak rfl (.indent (.indent (.arrive 2)))
  simpa using BlockText.mapping hspells (by decide) hgap h

def entries (s : Settings) : List (Node × Node) :=
  [(.ofText .plain "general".toList, .mapping {}
      [(.ofText .plain "default_output".toList, .ofText .plain s.form.name.toList),
        (.ofText .plain "color".toList, .ofText .plain s.colour.name.toList)]),
    (.ofText .plain "parser".toList, .mapping {}
      [(.ofText .plain "default_block_minutes".toList,
          .ofText .plain (digits s.line.blockMinutes.toNat)),
        (.ofText .plain "implicit_task_minutes".toList,
          .ofText .plain (digits s.line.taskMinutes.toNat))]),
    (.ofText .plain "suggestions".toList, .mapping {}
      [(.ofText .plain "limit".toList, .ofText .plain (digits s.completionLimit.toNat))])]

/-- The text of saved settings is one of the grammar, for the entries of the settings. -/
theorem blockText_toText (s : Settings) : BlockText 0 none s.toText.toList s.entries := by
  have hline : Idle (some 2) .token ['\n', ' ', ' '] :=
    .lineBreak rfl (.indent (.indent (.arrive 2)))
  have hsection : Idle (some 0) .token ['\n'] := .lineBreak rfl (.arrive 0)
  have hend : Idle none .token ['\n'] := .lineBreak rfl (.stop _)
  have hform : isPlain s.form.name.toList = true := by cases s.form <;> decide
  have hcolour : isPlain s.colour.name.toList = true := by cases s.colour <;> decide
  have hblock := isPlain_digits s.line.blockMinutes.toNat
  have htask := isPlain_digits s.line.taskMinutes.toNat
  have hlimit := isPlain_digits s.completionLimit.toNat
  -- One section after the other; the texts of the values are plain whatever the settings are.
  have hgeneral : BlockText 0 (some 0) _ [_] :=
    blockText_section (by decide : isPlain "general".toList = true) (by decide)
      ((blockText_line (by decide : isPlain "default_output".toList = true) (by decide) hform
          hline).append
        (blockText_line (by decide : isPlain "color".toList = true) (by decide) hcolour hsection))
  have hparser : BlockText 0 (some 0) _ [_] :=
    blockText_section (by decide : isPlain "parser".toList = true) (by decide)
      ((blockText_line (by decide : isPlain "default_block_minutes".toList = true) (by decide)
          hblock hline).append
        (blockText_line (by decide : isPlain "implicit_task_minutes".toList = true) (by decide)
          htask hsection))
  have hsuggestions : BlockText 0 none _ [_] :=
    blockText_section (by decide : isPlain "suggestions".toList = true) (by decide)
      (blockText_line (by decide : isPlain "limit".toList = true) (by decide) hlimit hend)
  refine Eq.mp (congrArg (fun cs => BlockText 0 none cs s.entries) ?_)
    (hgeneral.append (hparser.append hsuggestions))
  unfold toText
  simp only [String.toList_append, List.append_assoc, List.cons_append, List.nil_append, number,
    String.toList_ofList]
  rfl

def isSimple (c : Char) : Bool := c = '\n' || (0x20 ≤ c.toNat && c.toNat ≤ 0x7E)

theorem unifyBreaks_of_isSimple {cs : List Char} (h : ∀ c ∈ cs, isSimple c = true) :
    unifyBreaks cs = cs := by
  induction cs with
  | nil => rfl
  | cons c cs ih =>
    obtain ⟨hc, hcs⟩ := List.forall_mem_cons.1 h
    have hreturn : c ≠ '\r' := by
      rintro rfl
      cases hc
    have hnext : c ≠ '\u0085' := by
      rintro rfl
      cases hc
    rw [unifyBreaks, ih hcs]
    · exact fun _ h => absurd h hreturn
    · exact hreturn
    · exact hnext

theorem isAllowed_of_isSimple {c : Char} (h : isSimple c = true) : isAllowed c = true := by
  simp only [isSimple, Bool.or_eq_true, decide_eq_true_eq] at h
  rcases h with rfl | h
  · rfl
  · simp [isAllowed, h]

/-- Nothing in the text of saved settings is changed or refused by the lexer. -/
theorem isSimple_of_mem_toText (s : Settings) : ∀ c ∈ s.toText.toList, isSimple c = true := by
  have hdigits : ∀ n, (digits n).all isSimple = true := fun n => List.all_eq_true.2 fun c hc => by
    have hdigit := isDigit_of_mem_digits hc
    simp only [Char.isDigit, ge_iff_le, Bool.and_eq_true, decide_eq_true_eq] at hdigit
    have hlo : 0x30 ≤ c.toNat := hdigit.1
    have hhi : c.toNat ≤ 0x39 := hdigit.2
    simp [isSimple]
    omega
  have hform : s.form.name.toList.all isSimple = true := by cases s.form <;> decide
  have hcolour : s.colour.name.toList.all isSimple = true := by cases s.colour <;> decide
  rw [← List.all_eq_true]
  unfold toText
  simp only [String.toList_append, List.all_append, number, String.toList_ofList, hform,
    hcolour, hdigits]
  decide

section Entries

variable (d : Document)

theorem keyText?_ofText (style : ScalarStyle) (text : String) :
    keyText? d (.ofText style text.toList) = some text :=
  congrArg some String.ofList_toList

theorem keyText?_ofText_ne {text other : String} (h : text ≠ other) (style : ScalarStyle) :
    keyText? d (.ofText style text.toList) ≠ some other := by
  rw [keyText?_ofText]
  exact fun hsome => h (Option.some.inj hsome)

theorem writesName_ofText (style : ScalarStyle) (name : String) :
    WritesName d (.ofText style name.toList) name :=
  .mk (p := {}) rfl (congrArg (fun text => some (Node.scalar {} style text)) String.ofList_toList)

theorem writesNumber_digits (n : Nat) : WritesNumber d (.ofText .plain (digits n)) n :=
  .mk (p := {}) (by rw [String.toList_ofList]; exact spellsNumber_digits n) rfl

/-- The entries of saved settings write all of the settings. -/
theorem writesSettings_entries (s : Settings) : WritesSettings d s.entries s.all := by
  have hgeneral : WritesGroup d .general _ [.form s.form, .colour s.colour] :=
    .setting rfl (keyText?_ofText d .plain "default_output")
      (.form (writesName_ofText d .plain s.form.name))
      (List.forall_mem_singleton.2 (keyText?_ofText_ne d (by simp [Setting.key]) .plain))
      (.setting rfl (keyText?_ofText d .plain "color")
        (.colour (writesName_ofText d .plain s.colour.name)) (List.forall_mem_nil _) .nil)
  have hparser : WritesGroup d .parser _
      [.blockMinutes s.line.blockMinutes, .taskMinutes s.line.taskMinutes] :=
    .setting rfl (keyText?_ofText d .plain "default_block_minutes")
      (.blockMinutes (writesNumber_digits d _))
      (List.forall_mem_singleton.2 (keyText?_ofText_ne d (by simp [Setting.key]) .plain))
      (.setting rfl (keyText?_ofText d .plain "implicit_task_minutes")
        (.taskMinutes (writesNumber_digits d _)) (List.forall_mem_nil _) .nil)
  have hsuggestions : WritesGroup d .suggestions _ [.completionLimit s.completionLimit] :=
    .setting rfl (keyText?_ofText d .plain "limit")
      (.completionLimit (writesNumber_digits d _)) (List.forall_mem_nil _) .nil
  exact .group (keyText?_ofText d .plain "general") rfl hgeneral
    (List.forall_mem_cons.2 ⟨keyText?_ofText_ne d (by decide) .plain,
      List.forall_mem_singleton.2 (keyText?_ofText_ne d (by decide) .plain)⟩)
    (.group (keyText?_ofText d .plain "parser") rfl hparser
      (List.forall_mem_singleton.2 (keyText?_ofText_ne d (by decide) .plain))
      (.group (keyText?_ofText d .plain "suggestions") rfl hsuggestions (List.forall_mem_nil _)
        .nil))

end Entries

theorem textWrites_toText (s : Settings) : TextWrites s.toText s.all := by
  have hsimple := s.isSimple_of_mem_toText
  refine .block (List.all_eq_true.2 fun c hc => isAllowed_of_isSimple (hsimple c hc)) ?_
    (writesSettings_entries _ s)
  rw [unifyBreaks_of_isSimple hsimple]
  have hdocument := BlockDocument.entries (.bare (.arrive 0)) s.blockText_toText
  rwa [List.nil_append] at hdocument

/-! ## Files -/

open FileTree

variable {s : Settings} {t v : FileTree} {p : Path} {place : Place}

/-- A file with entries that write settings is loaded as the defaults, overridden by them. -/
theorem run_load_of_textWrites (h : TextWrites text ws) (hread : t.read p = .ok text.toUTF8) :
    (load access p).run t = (.ok (overridden ws), t) := by
  rw [run_load_of_ok hread, ofBytes_toUTF8 p h.ofText]

/-- What is saved can be read. -/
theorem read_of_run_save (h : (save access p s).run t = (.ok (), v)) :
    v.read p = .ok s.toText.toUTF8 := by
  rcases save_cases t p s with ⟨v', place, hsave, hwrote⟩ | ⟨failure, v', hsave, -⟩
  · obtain rfl : v' = v := congrArg Prod.snd (hsave.symm.trans h)
    exact read_eq_ok_iff.2 (find_eq_file_iff.2
      ⟨place, hwrote.locate, content?_eq_some_iff.1 hwrote.content?_self, hwrote.slash⟩)
  · rw [hsave] at h
    cases h

/-- A file can be saved in a directory that is there. -/
theorem run_save_of_locate (ht : t.IsClosed) (hlocate : t.locate p = .ok place)
    (hat : t.at? place ≠ some .directory) (hslash : p.endsWithSlash = false) (s : Settings) :
    ∃ v, (save access p s).run t = (.ok (), v) :=
  ⟨_, run_save_of_ok (run_prepare_of_locate ht hlocate)
    (write_eq_ok_iff.2 ⟨hslash, place, hlocate, hat, rfl⟩)⟩

/-- Saved settings are loaded again as they were. A file in which some settings are written loads
the defaults, overridden by exactly these, and the order in which they are written is of no
importance. -/
theorem recovered_from_file :
    (∀ (s : Settings) (t v : FileTree) (p : Path),
      (save access p s).run t = (.ok (), v) → (load access p).run v = (.ok s, v)) ∧
    (∀ (s : Settings) (t : FileTree) (p : Path) (place : Place), t.IsClosed →
      t.locate p = .ok place → t.at? place ≠ some .directory → p.endsWithSlash = false →
      ∃ v, (save access p s).run t = (.ok (), v)) ∧
    (∀ (text : String) (ws : List Setting) (t : FileTree) (p : Path), TextWrites text ws →
      t.read p = .ok text.toUTF8 → (load access p).run t = (.ok (overridden ws), t)) ∧
    ∀ (text text' : String) (ws ws' : List Setting) (t t' : FileTree) (p p' : Path),
      TextWrites text ws → TextWrites text' ws' → ws.Perm ws' →
      t.read p = .ok text.toUTF8 → t'.read p' = .ok text'.toUTF8 →
      ((load access p).run t).1 = ((load access p').run t').1 := by
  refine ⟨fun s t v p hsave => ?_, fun s t p place ht hlocate hat hslash => ?_,
    fun text ws t p h hread => run_load_of_textWrites h hread,
    fun text text' ws ws' t t' p p' h h' hperm hread hread' => ?_⟩
  · have hload := run_load_of_textWrites s.textWrites_toText (read_of_run_save hsave)
    rwa [overridden_all] at hload
  · exact run_save_of_locate ht hlocate hat hslash s
  · rw [run_load_of_textWrites h hread, run_load_of_textWrites h' hread',
      overridden_perm h.nodup_keys hperm]

/-- Two settings in a file that leaves out the others and has a key of its own, and the same two in
another order; and the defaults, saved in place of the first. -/
theorem recovered_partial :
    let text := "suggestions:\n  limit: 5\n  theme: dark\ngeneral:\n  color: never\n"
    let text' := "general:\n  color: never\nsuggestions:\n  limit: 5\n"
    let p : Path := ⟨"config.yaml"⟩
    let t := ({} : FileTree).put ["config.yaml"] (.file text.toUTF8)
    let t' := ({} : FileTree).put ["config.yaml"] (.file text'.toUTF8)
    (load access p).run t = (.ok { colour := .never, completionLimit := 5 }, t) ∧
      ((load access p).run t).1 = ((load access p).run t').1 ∧
      ∃ v, (save access p {}).run t = (.ok (), v) ∧ (load access p).run v = (.ok {}, v) := by
  intro text text' p t t'
  obtain ⟨hsaved, hsave, hloaded, horder⟩ := recovered_from_file
  have hline : Idle (some 2) .token ['\n', ' ', ' '] :=
    .lineBreak rfl (.indent (.indent (.arrive 2)))
  have hsection : Idle (some 0) .token ['\n'] := .lineBreak rfl (.arrive 0)
  have hend : Idle none .token ['\n'] := .lineBreak rfl (.stop _)
  have hlimit : isPlain "limit".toList = true := by decide
  have hfive : isPlain (digits 5) = true := isPlain_digits 5
  have hcolor : isPlain "color".toList = true := by decide
  have hnever : isPlain "never".toList = true := by decide
  have hsuggestions : isPlain "suggestions".toList = true := by decide
  have hgeneral : isPlain "general".toList = true := by decide
  have hfound : ∀ d, WritesGroup d .general
      [(.ofText .plain "color".toList, .ofText .plain "never".toList)] [.colour .never] := fun d =>
    .setting rfl (keyText?_ofText d .plain "color") (.colour (writesName_ofText d .plain "never"))
      (List.forall_mem_nil _) .nil
  have hread : TextWrites text [.completionLimit 5, .colour .never] := by
    have hblock := BlockDocument.entries (.bare (.arrive 0))
      ((blockText_section hsuggestions (by decide)
          ((blockText_line hlimit (by decide) hfive hline).append
            (blockText_line (by decide : isPlain "theme".toList = true) (by decide)
              (by decide : isPlain "dark".toList = true) hsection))).append
        (blockText_section hgeneral (by decide) (blockText_line hcolor (by decide) hnever hend)))
    refine .block (by decide) (Eq.mp (congrArg (BlockDocument · _) ?_) hblock) ?_
    · decide
    · exact .group (keyText?_ofText _ .plain "suggestions") rfl
        (.setting rfl (keyText?_ofText _ .plain "limit")
          (.completionLimit (writesNumber_digits _ 5))
          (List.forall_mem_singleton.2 (keyText?_ofText_ne _ (by simp [Setting.key]) .plain))
          (.unknown (keyText?_ofText _ .plain "theme") (by decide) .nil))
        (List.forall_mem_singleton.2 (keyText?_ofText_ne _ (by decide) .plain))
        (.group (keyText?_ofText _ .plain "general") rfl (hfound _) (List.forall_mem_nil _) .nil)
  have hread' : TextWrites text' [.colour .never, .completionLimit 5] := by
    have hblock := BlockDocument.entries (.bare (.arrive 0))
      ((blockText_section hgeneral (by decide)
          (blockText_line hcolor (by decide) hnever hsection)).append
        (blockText_section hsuggestions (by decide)
          (blockText_line hlimit (by decide) hfive hend)))
    refine .block (by decide) (Eq.mp (congrArg (BlockDocument · _) ?_) hblock) ?_
    · decide
    · exact .group (keyText?_ofText _ .plain "general") rfl (hfound _)
        (List.forall_mem_singleton.2 (keyText?_ofText_ne _ (by decide) .plain))
        (.group (keyText?_ofText _ .plain "suggestions") rfl
          (.setting rfl (keyText?_ofText _ .plain "limit")
            (.completionLimit (writesNumber_digits _ 5)) (List.forall_mem_nil _) .nil)
          (List.forall_mem_nil _) .nil)
  have hnothing : ({} : FileTree).at? ["config.yaml"] = none := rfl
  have hfile : t.at? ["config.yaml"] = some (.file text.toUTF8) := rfl
  have ht : t.IsClosed := isClosed_empty.put rfl (by simp [hnothing]) _
  have hlocate : t.locate ⟨"config.yaml"⟩ = .ok ["config.yaml"] := rfl
  obtain ⟨v, hv⟩ := hsave {} t p ["config.yaml"] ht hlocate (by simp [hfile]) (by decide)
  have hopened : t.read ⟨"config.yaml"⟩ = .ok text.toUTF8 := rfl
  have hopened' : t'.read ⟨"config.yaml"⟩ = .ok text'.toUTF8 := rfl
  exact ⟨hloaded text _ t p hread hopened,
    horder text text' _ _ t t' p p hread hread' (.swap ..) hopened hopened', v, hv,
    hsaved {} t v p hv⟩

end Settings

end Shorthand
