import Shorthand.Proofs.Files.Closed
import Shorthand.Settings.File

/-!
The settings file in a tree of files. `Settings.save_cases` says all that saving can do: it writes
the file that the path names, or leaves every file as it is.
-/

namespace Shorthand

open FileTree

variable {t u v : FileTree} {p : Path} {place other : Place} {bytes : ByteArray}

/-! ## One file written -/

/-- The file that a path names is written into `t`, after directories were made. -/
structure Wrote (t : FileTree) (p : Path) (bytes : ByteArray) (place : Place) (v : FileTree) :
    Prop where
  exists_made : ∃ u, Kept t u ∧ (t.IsClosed → u.IsClosed) ∧ u.locate p = .ok place ∧
    u.at? place ≠ some .directory ∧ v = u.put place (.file bytes)
  slash : p.endsWithSlash = false

namespace Wrote

variable (h : Wrote t p bytes place v)

include h

theorem grows : Grows t v := by
  obtain ⟨u, hkept, -, -, hat, rfl⟩ := h.exists_made
  exact hkept.toGrows.trans (grows_put hat _)

theorem isClosed (ht : t.IsClosed) : v.IsClosed := by
  obtain ⟨u, -, hclosed, hlocate, hat, rfl⟩ := h.exists_made
  exact (hclosed ht).put ((hclosed ht).locate hlocate) hat _

/-- The path still names the place of the file once it is written. -/
theorem locate : v.locate p = .ok place := by
  obtain ⟨u, -, -, hlocate, hat, rfl⟩ := h.exists_made
  exact (grows_put hat _).locate hlocate

/-- No other file is touched. -/
theorem content? (other : Place) :
    v.content? other = if other = place then some bytes else t.content? other := by
  obtain ⟨u, hkept, -, -, hat, rfl⟩ := h.exists_made
  rw [content?_put_file hat, hkept.content]

theorem content?_self : v.content? place = some bytes := by
  rw [h.content?, if_pos rfl]

end Wrote

/-! ## The use of a tree -/

/-- A program of two steps leaves the files that the second one makes of those of the first. -/
theorem run_bind {α β : Type} (x : StateM FileTree α) (f : α → StateM FileTree β) (t : FileTree) :
    (x >>= f).run t = (f (x.run t).1).run (x.run t).2 := rfl

theorem run_read (t : FileTree) (p : Path) : (access.read p).run t = (t.read p, t) := rfl

theorem run_createDirectories (t : FileTree) (p : Path) :
    (access.createDirectories p).run t = t.createDirectories p := rfl

theorem run_write_of_ok {text : String} (h : t.write p text.toUTF8 = .ok v) :
    (access.write p text).run t = (.ok (), v) := by
  simp only [access, StateT.run_modifyGet, h]
  rfl

theorem run_write_of_error {text : String} {fault : FileFault}
    (h : t.write p text.toUTF8 = .error fault) :
    (access.write p text).run t = (.error fault, t) := by
  simp only [access, StateT.run_modifyGet, h]
  rfl

namespace Settings

variable {s : Settings}

/-! ## Loading -/

theorem run_load_of_ok (h : t.read p = .ok bytes) :
    (load access p).run t = (ofBytes p bytes, t) := by
  rw [load, run_bind, run_read, h]
  rfl

/-- Loading settings changes no file. -/
theorem snd_run_load (t : FileTree) (p : Path) : ((load access p).run t).2 = t := by
  rw [load, run_bind, run_read]
  cases t.read p <;> rfl

/-! ## Saving -/

/-- Making room for the file leaves every file as it is, whether or not it succeeds. -/
theorem kept_prepare (t : FileTree) (p : Path) : Kept t ((prepare access p).run t).2 ∧
    (t.IsClosed → ((prepare access p).run t).2.IsClosed) := by
  unfold prepare
  split
  · exact ⟨.refl t, id⟩
  · rename_i directory _
    have hkept := kept_createDirectories t directory
    have hclosed := fun ht : t.IsClosed => ht.createDirectories directory
    rw [run_bind, run_createDirectories]
    cases (t.createDirectories directory).1 with
    | ok done => exact ⟨hkept, hclosed⟩
    | error fault => exact ⟨hkept, hclosed⟩

/-- Nothing has to be made for a path that leads somewhere. -/
theorem run_prepare_of_locate (ht : t.IsClosed) (hlocate : t.locate p = .ok place) :
    (prepare access p).run t = (.ok (), t) := by
  unfold prepare
  split
  · rfl
  · rename_i hparent
    rw [run_bind, run_createDirectories, createDirectories_parent ht hlocate hparent]
    rfl

/-- Settings are saved if the file can be written behind the directories that were made. -/
theorem run_save_of_ok (h : (prepare access p).run t = (.ok (), u))
    (hwrite : u.write p s.toText.toUTF8 = .ok v) : (save access p s).run t = (.ok (), v) := by
  rw [save, run_bind, h]
  show (access.write p s.toText >>= _).run u = _
  rw [run_bind, run_write_of_ok hwrite]
  rfl

/-- Saving writes the file that the path names, or it fails and leaves every file as it is. -/
theorem save_cases (t : FileTree) (p : Path) (s : Settings) :
    (∃ v place, (save access p s).run t = (.ok (), v) ∧ Wrote t p s.toText.toUTF8 place v) ∨
    ∃ failure v, (save access p s).run t = (.error failure, v) ∧ Kept t v ∧
      (t.IsClosed → v.IsClosed) := by
  obtain ⟨hkept, hclosed⟩ := kept_prepare t p
  cases hprepare : (prepare access p).run t with
  | mk result u =>
    rw [hprepare] at hkept hclosed
    cases result with
    | error failure =>
      refine Or.inr ⟨failure, u, ?_, hkept, hclosed⟩
      rw [save, run_bind, hprepare]
      rfl
    | ok done =>
      cases hwrite : u.write p s.toText.toUTF8 with
      | error fault =>
        refine Or.inr ⟨.settingsNotWritten p fault, u, ?_, hkept, hclosed⟩
        rw [save, run_bind, hprepare]
        show (access.write p s.toText >>= _).run u = _
        rw [run_bind, run_write_of_error hwrite]
        rfl
      | ok v =>
        obtain ⟨hslash, place, hlocate, hat, hv⟩ := write_eq_ok_iff.1 hwrite
        exact Or.inl ⟨v, place, run_save_of_ok hprepare hwrite,
          ⟨u, hkept, hclosed, hlocate, hat, hv⟩, hslash⟩

/-- A file can be saved where one is found. -/
theorem run_save_of_find (ht : t.IsClosed) (h : t.find p = .ok (.file bytes)) :
    ∃ v, (save access p s).run t = (.ok (), v) := by
  obtain ⟨place, hlocate, hat, hslash⟩ := find_eq_file_iff.1 h
  refine ⟨t.put place (.file s.toText.toUTF8),
    run_save_of_ok (run_prepare_of_locate ht hlocate) (write_eq_ok_iff.2 ?_)⟩
  exact ⟨hslash, place, hlocate, by rw [hat]; nofun, rfl⟩

end Settings

end Shorthand
