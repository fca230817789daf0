import Shorthand.CommandLine.Read
import Shorthand.CommandLine.Run
import Shorthand.Proofs.Settings.File

/-!
Runs of the program one after another. `CommandLine.only_initialising_writes` says that no run
changes a file but one that initialises the settings, and what that one writes.
-/

namespace Shorthand

open FileTree

variable {t u v w : FileTree} {p file : Path} {place : Place}

/-! ## Default settings in a file -/

namespace Settings

def defaultBytes : ByteArray := ({} : Settings).toText.toUTF8

/-- The file of default settings holds the defaults. -/
theorem ofBytes_defaultBytes (file : Path) : ofBytes file defaultBytes = .ok {} :=
  ofBytes_toUTF8 file (by decide +kernel)

end Settings

open Settings (defaultBytes)

/-! ## Initialising -/

theorem run_isTaken_of_find {e : Entry} (h : t.find p = .ok e) :
    (access.isTaken p).run t = (true, t) := by
  rw [FileAccess.isTaken, run_bind, run_read, FileTree.read, h]
  cases e <;> rfl

theorem snd_run_isTaken (t : FileTree) (p : Path) : ((access.isTaken p).run t).2 = t := by
  rw [FileAccess.isTaken, run_bind, run_read]
  cases t.read p <;> rfl

namespace Invocation

/-- Initialising writes the default settings, and only by force where something was found; or it
fails and leaves every file as it is. -/
theorem initialise_cases (t : FileTree) (p : Path) (force terminal : Bool) :
    (∃ text v place, (initialise access p force terminal).run t = (.ok text, v) ∧
      Wrote t p defaultBytes place v ∧ (force = false → ∀ e, t.find p ≠ .ok e)) ∨
    ∃ failure v, (initialise access p force terminal).run t = (.error failure, v) ∧ Kept t v ∧
      (t.IsClosed → v.IsClosed) := by
  have hsame := snd_run_isTaken t p
  cases htaken : (access.isTaken p).run t with
  | mk taken u =>
    rw [htaken] at hsame
    obtain rfl : u = t := hsame
    -- Initialising refuses, or it is saving the default settings.
    by_cases hrefuse : (taken && !force) = true
    · refine Or.inr ⟨.settingsTaken p, u, ?_, .refl u, id⟩
      rw [initialise, run_bind, htaken]
      show StateT.run (if (taken && !force) = true then _ else _) u = _
      rw [if_pos hrefuse]
      rfl
    · have hrun : (initialise access p force terminal).run u =
          (((({} : Settings).save access p).run u).1.map fun _ =>
              Style.green.paint (({} : Settings).colour.applies terminal) "Wrote" ++ " " ++ p.text,
            ((({} : Settings).save access p).run u).2) := by
        rw [initialise, run_bind, htaken]
        show StateT.run (if (taken && !force) = true then _ else _) u = _
        rw [if_neg hrefuse]
        rfl
      rcases Settings.save_cases u p {} with ⟨v, place, hsave, hwrote⟩ | ⟨failure, v, hsave, h⟩
      · refine Or.inl ⟨_, v, place, by rw [hrun, hsave]; rfl, hwrote, fun hforce e hfind => ?_⟩
        rw [run_isTaken_of_find hfind] at htaken
        obtain rfl : true = taken := congrArg Prod.fst htaken
        exact hrefuse (by rw [hforce]; rfl)
      · exact Or.inr ⟨failure, v, by rw [hrun, hsave]; rfl, h⟩

/-- A question changes no file. -/
theorem run_ask {i : Invocation} {question : Question} (h : i.request = .ask question)
    (around : Surroundings) (t : FileTree) : ((i.run access around).run t).2 = t := by
  have hload := Settings.snd_run_load t (i.settingsFile around.home)
  unfold run
  rw [h]
  show (StateT.run ((Settings.load access (i.settingsFile around.home)) >>= _) t).2 = t
  rw [run_bind, hload]
  cases ((Settings.load access (i.settingsFile around.home)).run t).1 <;> rfl

end Invocation

/-! ## Runs -/

/-- The arguments of a run, the settings file that is named where they name none, and what is around
the run. -/
structure CommandLine where
  arguments : List String
  fallback : Option String
  around : Surroundings

namespace CommandLine

variable {l : CommandLine} {force : Bool}

def invocation (l : CommandLine) : Except UsageFault Invocation :=
  Invocation.read l.fallback l.arguments

def run (l : CommandLine) (t : FileTree) : Except UsageFault (Except Failure String) × FileTree :=
  match l.invocation with
  | .error fault => (.error fault, t)
  | .ok i => (.ok ((i.run access l.around).run t).1, ((i.run access l.around).run t).2)

def Initialises (l : CommandLine) (file : Path) (force : Bool) : Prop :=
  ∃ i, l.invocation = .ok i ∧ i.request = .initSettings force ∧
    i.settingsFile l.around.home = file

def Succeeds (l : CommandLine) (t : FileTree) : Prop := ∃ text, (l.run t).1 = .ok (.ok text)

def after (ls : List CommandLine) (t : FileTree) : FileTree := ls.foldl (fun t l => (l.run t).2) t

/-- A run asks for one file to be initialised at most. -/
theorem Initialises.unique {file' : Path} {force' : Bool} (h : l.Initialises file force)
    (h' : l.Initialises file' force') : file = file' ∧ force = force' := by
  obtain ⟨i, hi, hrequest, rfl⟩ := h
  obtain ⟨i', hi', hrequest', rfl⟩ := h'
  obtain rfl : i = i' := Except.ok.inj (hi.symm.trans hi')
  rw [hrequest] at hrequest'
  cases hrequest'
  exact ⟨rfl, rfl⟩

theorem run_of_initialises (h : l.Initialises file force) (t : FileTree) :
    l.run t = (.ok ((Invocation.initialise access file force l.around.terminal).run t).1,
      ((Invocation.initialise access file force l.around.terminal).run t).2) := by
  obtain ⟨i, hi, hrequest, rfl⟩ := h
  unfold run
  rw [hi]
  show (Except.ok ((i.run access l.around).run t).1, ((i.run access l.around).run t).2) = _
  unfold Invocation.run
  rw [hrequest]

/-- All that a run can do: it writes the default settings into the file that it initialises, or it
leaves every file as it is. -/
theorem run_cases (l : CommandLine) (t : FileTree) :
    (∃ file force place, l.Initialises file force ∧ l.Succeeds t ∧
      Wrote t file defaultBytes place (l.run t).2 ∧
      (force = false → ∀ e, t.find file ≠ .ok e)) ∨
    (∀ file force, l.Initialises file force → ¬ l.Succeeds t) ∧ Kept t (l.run t).2 ∧
      (t.IsClosed → (l.run t).2.IsClosed) := by
  by_cases h : ∃ file force, l.Initialises file force
  · obtain ⟨file, force, h⟩ := h
    have hrun := run_of_initialises h t
    rcases Invocation.initialise_cases t file force l.around.terminal with
      ⟨text, v, place, hinit, hwrote, hforce⟩ | ⟨failure, v, hinit, hkept, hclosed⟩
    · rw [hinit] at hrun
      exact Or.inl ⟨file, force, place, h, ⟨text, by rw [hrun]⟩, by rwa [hrun], hforce⟩
    · rw [hinit] at hrun
      refine Or.inr ⟨fun _ _ _ hsucceeds => ?_, by rwa [hrun], by rwa [hrun]⟩
      obtain ⟨text, htext⟩ := hsucceeds
      rw [hrun] at htext
      cases htext
  · -- A run that initialises nothing asks a question, or is refused before it starts.
    have hsame : (l.run t).2 = t := by
      unfold run
      cases hi : l.invocation with
      | error fault => rfl
      | ok i =>
        show ((i.run access l.around).run t).2 = t
        cases hrequest : i.request with
        | ask question => exact Invocation.run_ask hrequest l.around t
        | initSettings force => exact absurd ⟨_, force, i, hi, hrequest, rfl⟩ h
    rw [hsame]
    exact Or.inr ⟨fun file force hinit => absurd ⟨file, force, hinit⟩ h, .refl t, id⟩

/-- By force a file is replaced, whatever it holds. -/
theorem succeeds_of_find {bytes : ByteArray} (ht : t.IsClosed) (h : l.Initialises file true)
    (hfind : t.find file = .ok (.file bytes)) : l.Succeeds t := by
  obtain ⟨v, hsave⟩ := Settings.run_save_of_find ht hfind
  rw [Succeeds, run_of_initialises h, Invocation.initialise, run_bind, run_isTaken_of_find hfind]
  show ∃ text, Except.ok (StateT.run (Settings.save access file {} >>= _) t).1 = _
  rw [run_bind, hsave]
  exact ⟨_, rfl⟩

/-! ## Runs one after another -/

/-- What every run keeps: directories, and files that are as they were or hold the defaults. -/
structure Follows (t u : FileTree) : Prop where
  grows : Grows t u
  closed : t.IsClosed → u.IsClosed
  content : ∀ place, u.content? place = t.content? place ∨ u.content? place = some defaultBytes

theorem Follows.refl (t : FileTree) : Follows t t := ⟨.refl t, id, fun _ => Or.inl rfl⟩

theorem Follows.trans (h : Follows t u) (h' : Follows u v) : Follows t v := by
  refine ⟨h.grows.trans h'.grows, h'.closed ∘ h.closed, fun place => ?_⟩
  rcases h'.content place with hsame | hdefault
  · rw [hsame]
    exact h.content place
  · exact Or.inr hdefault

/-- A run keeps what every run keeps. -/
theorem follows_run (l : CommandLine) (t : FileTree) : Follows t (l.run t).2 := by
  rcases run_cases l t with ⟨file, force, place, -, -, hwrote, -⟩ | ⟨-, hkept, hclosed⟩
  · refine ⟨hwrote.grows, hwrote.isClosed, fun other => ?_⟩
    rw [hwrote.content?]
    split
    · exact Or.inr rfl
    · exact Or.inl rfl
  · exact ⟨hkept.toGrows, hclosed, fun place => Or.inl (hkept.content place)⟩

/-- So do any number of runs. -/
theorem follows_after (ls : List CommandLine) (t : FileTree) : Follows t (after ls t) := by
  induction ls generalizing t with
  | nil => exact .refl t
  | cons l ls ih => exact (follows_run l t).trans (ih (l.run t).2)

/-- A run that answers a question uses the default settings if its file holds them. -/
theorem run_of_default {i : Invocation} {question : Question} (hi : l.invocation = .ok i)
    (hask : i.request = .ask question) (hlocate : t.locate file = .ok place)
    (hslash : file.endsWithSlash = false) (hcontent : t.content? place = some defaultBytes)
    (hfile : i.settingsFile l.around.home = file) :
    (l.run t).1 = .ok (Asked.answer
      { settings := {}, file, form := i.form.getD .pretty, around := l.around } question) := by
  have hread : t.read file = .ok defaultBytes := read_eq_ok_iff.2
    (find_eq_file_iff.2 ⟨place, hlocate, content?_eq_some_iff.1 hcontent, hslash⟩)
  have hload := Settings.run_load_of_ok hread
  rw [Settings.ofBytes_defaultBytes] at hload
  unfold run
  rw [hi]
  show Except.ok ((i.run access l.around).run t).1 = _
  unfold Invocation.run
  rw [hask, hfile]
  show Except.ok (StateT.run (Settings.load access file >>= _) t).1 = _
  rw [run_bind, hload]
  rfl

/-- Among runs one after another, none changes a file but one that succeeds in initialising the
settings: it writes the defaults into the file that its path names, and only by force where
something was found along the path. So a file holds what it held at first or the defaults, and later
runs with that path use the defaults. Along a path that leads back out of a directory, nothing may
be found because that directory is missing; once it is made there can be a file at the end of the
path. -/
theorem only_initialising_writes (ht : t.IsClosed) (before : List CommandLine) (l : CommandLine)
    (later : List CommandLine) (hu : after before t = u) (hv : (l.run u).2 = v)
    (hw : after later v = w) :
    ((∀ file force, l.Initialises file force → ¬ l.Succeeds u) →
      ∀ place, v.content? place = u.content? place) ∧
    (∀ file force, l.Initialises file force → l.Succeeds u →
      (∃ place, v.locate file = .ok place ∧
        (∀ other, v.content? other =
          if other = place then some defaultBytes else u.content? other) ∧
        (force = false → ".." ∉ file.steps → u.content? place = none)) ∧
      (force = false → ∀ e, u.find file ≠ .ok e) ∧
      ∀ (next : CommandLine) (i : Invocation) (question : Question),
        next.invocation = .ok i → i.request = .ask question →
        i.settingsFile next.around.home = file →
        (next.run w).1 = .ok (Asked.answer
          { settings := {}, file, form := i.form.getD .pretty, around := next.around }
          question)) ∧
    (∀ file bytes, l.Initialises file true → u.find file = .ok (.file bytes) → l.Succeeds u) ∧
    ∀ place, w.content? place = t.content? place ∨ w.content? place = some defaultBytes := by
  -- The runs before and after keep what every run keeps; the run in the middle is one of two cases.
  have hbefore : Follows t u := hu ▸ follows_after before t
  have hlater : Follows v w := hw ▸ follows_after later v
  have hclosed : u.IsClosed := hbefore.closed ht
  refine ⟨fun hfails => ?_, fun file force hinit hsucceeds => ?_, fun file bytes hinit hfind => ?_,
    ((hbefore.trans (hv ▸ follows_run l u)).trans hlater).content⟩
  · rcases run_cases l u with ⟨file, force, -, hinit, hsucceeds, -⟩ | ⟨-, hkept, -⟩
    · exact absurd hsucceeds (hfails file force hinit)
    · exact hv ▸ hkept.content
  · rcases run_cases l u with ⟨file', force', place, hinit', -, hwrote, hforce⟩ | ⟨hfails, -⟩
    · obtain ⟨rfl, rfl⟩ := hinit.unique hinit'
      rw [hv] at hwrote
      refine ⟨⟨place, hwrote.locate, hwrote.content?, fun hnot hup => ?_⟩, hforce,
        fun next i question hi hask hfile => ?_⟩
      · obtain ⟨made, hkept, -, hlocate, -⟩ := hwrote.exists_made
        exact content?_eq_none_of_missing hclosed hkept hup hwrote.slash (hforce hnot) hlocate
      · have hcontent : w.content? place = some defaultBytes := by
          -- Whatever the later runs did to the file, it holds the defaults.
          rcases hlater.content place with hsame | hdefault
          · rw [hsame, hwrote.content?_self]
          · exact hdefault
        exact run_of_default hi hask (hlater.grows.locate hwrote.locate) hwrote.slash hcontent hfile
    · exact absurd hsucceeds (hfails file force hinit)
  · exact succeeds_of_find hclosed hinit hfind

/-- A file that is no settings file gives way to the defaults by force. -/
theorem only_initialising_writes_broken :
    let around : Surroundings :=
      { now := ⟨8, 10, 0⟩, home := none, input := .empty, terminal := false }
    let l : CommandLine := ⟨["config", "init", "--force"], some "cfg.yaml", around⟩
    let t := ({} : FileTree).put ["cfg.yaml"] (.file "suggestions: [".toUTF8)
    t.IsClosed ∧ l.Initialises ⟨"cfg.yaml"⟩ true ∧
      t.find ⟨"cfg.yaml"⟩ = .ok (.file "suggestions: [".toUTF8) ∧ l.Succeeds t ∧
      ∃ place, (l.run t).2.locate ⟨"cfg.yaml"⟩ = .ok place ∧
        (l.run t).2.content? place = some defaultBytes := by
  intro around l t
  have hnothing : ({} : FileTree).at? ["cfg.yaml"] = none := rfl
  have ht : t.IsClosed := isClosed_empty.put rfl (by rw [hnothing]; nofun) _
  have hinit : l.Initialises ⟨"cfg.yaml"⟩ true :=
    ⟨{ request := .initSettings true, settings := some "cfg.yaml" }, by decide +kernel, rfl, rfl⟩
  have hfind : t.find ⟨"cfg.yaml"⟩ = .ok (.file "suggestions: [".toUTF8) := rfl
  obtain ⟨-, hwrites, hforce, -⟩ := only_initialising_writes ht [] l [] rfl rfl rfl
  have hsucceeds : l.Succeeds t := hforce _ _ hinit hfind
  obtain ⟨⟨place, hlocate, hcontent, -⟩, -⟩ := hwrites _ _ hinit hsucceeds
  exact ⟨ht, hinit, hfind, hsucceeds, place, hlocate,
    (hcontent place).trans (if_pos rfl)⟩

/-- Nothing is found along the path as long as there is no directory `a`. Saving makes it, and then
the path leads to a file that was there, which is overwritten without force. -/
theorem run_init_through_missing_directory :
    let around : Surroundings :=
      { now := ⟨8, 10, 0⟩, home := none, input := .empty, terminal := false }
    let l : CommandLine := ⟨["config", "init", "--config", "a/../cfg.yaml"], none, around⟩
    let t := ({} : FileTree).put ["cfg.yaml"] (.file "suggestions:\n  limit: 1\n".toUTF8)
    l.invocation = .ok { request := .initSettings false, settings := some "a/../cfg.yaml" } ∧
      (l.run t).1 = .ok (.ok "Wrote a/../cfg.yaml") ∧
      t.content? ["cfg.yaml"] = some "suggestions:\n  limit: 1\n".toUTF8 ∧
      (l.run t).2.content? ["cfg.yaml"] = some defaultBytes ∧
      "suggestions:\n  limit: 1\n".toUTF8 ≠ defaultBytes := by
  decide +kernel

end CommandLine

end Shorthand
