import Shorthand.Proofs.Files.Path
import Shorthand.Proofs.Files.Tree

/-!
Trees in which every entry is in a directory. `FileTree.find_parent` says that the path above one
that leads somewhere names a directory, and `FileTree.content?_eq_none_of_missing` where nothing can
be at the end of a path that nothing was found along.
-/

namespace Shorthand.FileTree

variable {t u : FileTree} {place other : Place} {steps : List String} {p q : Path} {e : Entry}

/-- Every entry is in a directory, and paths start in one. -/
structure IsClosed (t : FileTree) : Prop where
  here : t.at? t.here = some .directory
  above : ∀ place name, t.at? (place ++ [name]) ≠ none → t.at? place = some .directory

theorem isClosed_empty : ({} : FileTree).IsClosed := by
  refine ⟨rfl, fun place name h => absurd ?_ h⟩
  rw [at?, if_neg (by simp)]
  rfl

namespace IsClosed

variable (ht : t.IsClosed)

include ht

/-- A directory stands in a directory. -/
theorem dropLast (h : t.at? place = some .directory) : t.at? place.dropLast = some .directory := by
  rcases List.eq_nil_or_concat place with rfl | ⟨front, name, rfl⟩
  · exact h
  · rw [List.concat_eq_append] at h ⊢
    rw [List.dropLast_concat]
    exact ht.above front name (by rw [h]; nofun)

/-- Above anything that is there stand directories only. -/
theorem of_front {name : String} {names : List String}
    (h : t.at? (place ++ name :: names) ≠ none) : t.at? place = some .directory := by
  induction names generalizing place name with
  | nil => exact ht.above place name h
  | cons second names ih =>
    refine ht.above place name ?_
    have hnext : t.at? (place ++ [name]) = some .directory := ih (by rwa [List.append_assoc])
    rw [hnext]
    nofun

/-- A path starts in a directory that is there. -/
theorem start {first : Place} (h : t.start p = .ok first) : t.at? first = some .directory := by
  unfold FileTree.start at h
  split at h
  · cases h
  split at h
  · cases h
  cases h
  split
  · rfl
  · exact ht.here

/-- What a path names is in a directory. -/
theorem leads (h : Leads t place steps other) (hplace : t.at? place = some .directory) :
    t.at? other.dropLast = some .directory := by
  induction h with
  | nil => exact ht.dropLast hplace
  | dot _ ih => exact ih hplace
  | up _ ih => exact ih (ht.dropLast hplace)
  | last _ => rwa [List.dropLast_concat]
  | into _ _ hat _ ih => exact ih hat

/-- The place that a path names is in a directory that is there. -/
theorem locate (h : t.locate p = .ok place) : t.at? place.dropLast = some .directory := by
  obtain ⟨first, hstart, hleads⟩ := locate_eq_ok_iff.1 h
  exact ht.leads hleads (ht.start hstart)

/-- What is put into a directory leaves every entry in one. -/
theorem put (habove : t.at? place.dropLast = some .directory)
    (hplace : t.at? place ≠ some .directory) (e : Entry) : (t.put place e).IsClosed := by
  have hgrows : Grows t (t.put place e) := grows_put hplace e
  refine ⟨hgrows.directory t.here ht.here, fun other name hother => hgrows.directory other ?_⟩
  rw [at?_put (ne_nil_of_at? hplace)] at hother
  split at hother
  · rename_i heq
    rwa [← heq, List.dropLast_concat] at habove
  · exact ht.above other name hother

end IsClosed

/-- Making directories keeps every entry in one, whether or not all of them are made. -/
theorem IsClosed.createDirectories (ht : t.IsClosed) (p : Path) :
    (t.createDirectories p).2.IsClosed := by
  refine createDirectories_induction (r := fun t u => t.IsClosed → u.IsClosed) (fun _ => id)
    (fun _ _ _ h h' => h' ∘ h) (fun t p u h ht => ?_) t p ht
  obtain ⟨place, hlocate, hat, rfl⟩ := createDirectory_eq_ok_iff.1 h
  exact ht.put (ht.locate hlocate) (by rw [hat]; nofun) _

/-! ## Ways along the front of others -/

/-- The first steps of a way lead to a directory. -/
theorem Leads.exists_front (ht : t.IsClosed) {front back : List String} (hback : back ≠ [])
    (h : Leads t place (front ++ back) other) (hplace : t.at? place = some .directory) :
    ∃ middle, Leads t place front middle ∧ t.at? middle = some .directory := by
  induction front generalizing place with
  | nil => exact ⟨place, .nil, hplace⟩
  | cons step front ih =>
    rw [List.cons_append] at h
    generalize hrest : front ++ back = rest at h
    cases h with
    | dot h =>
      obtain ⟨middle, hfront, hat⟩ := ih (hrest ▸ h) hplace
      exact ⟨middle, .dot hfront, hat⟩
    | up h =>
      obtain ⟨middle, hfront, hat⟩ := ih (hrest ▸ h) (ht.dropLast hplace)
      exact ⟨middle, .up hfront, hat⟩
    | last => exact absurd (List.append_eq_nil_iff.1 hrest).2 hback
    | into hstep _ hat h =>
      obtain ⟨middle, hfront, hmiddle⟩ := ih (hrest ▸ h) hat
      refine ⟨middle, ?_, hmiddle⟩
      by_cases hnil : front = []
      · subst hnil
        cases hfront
        exact .last hstep
      · exact .into hstep hnil hat hfront

theorem start_of_front {first : Place} (hne : q.text.toList ≠ [])
    (hfront : q.text.toList <+: p.text.toList) (h : t.start p = .ok first) :
    t.start q = .ok first := by
  obtain ⟨back, hback⟩ := hfront
  have hsize : q.text.utf8ByteSize ≤ p.text.utf8ByteSize := by
    have htext : p.text = q.text ++ String.ofList back := by
      rw [← String.toList_inj, String.toList_append, String.toList_ofList, hback]
    rw [htext, String.utf8ByteSize_append]
    exact Nat.le_add_right _ _
  have habsolute : q.isAbsolute = p.isAbsolute := by
    rw [Path.isAbsolute, Path.isAbsolute, ← hback, List.head?_append_of_ne_nil _ hne]
  unfold start at h ⊢
  split at h
  · cases h
  rename_i hzero
  split at h
  · cases h
  rename_i hlong
  rw [← hback, List.contains_iff_mem, List.mem_append, not_or] at hzero
  rw [if_neg (by rw [List.contains_iff_mem]; exact hzero.1), if_neg (by omega), habsolute]
  exact h

/-- The path above one that leads somewhere names a directory. -/
theorem find_parent (ht : t.IsClosed) (hlocate : t.locate p = .ok place)
    (hparent : p.parent? = some q) : t.find q = .ok .directory := by
  obtain ⟨first, hstart, hleads⟩ := locate_eq_ok_iff.1 hlocate
  obtain ⟨behind, hbehind, hsteps⟩ := Path.steps_of_parent? hparent
  obtain ⟨hne, hfront⟩ := Path.front_of_parent? hparent
  rw [hsteps] at hleads
  obtain ⟨middle, hmiddle, hat⟩ := hleads.exists_front ht hbehind (ht.start hstart)
  exact find_eq_directory_iff.2
    ⟨middle, locate_eq_ok_iff.2 ⟨first, start_of_front hne hfront hstart, hmiddle⟩, hat⟩

/-- The directory above a path that leads somewhere does not have to be made. -/
theorem createDirectories_parent (ht : t.IsClosed) (hlocate : t.locate p = .ok place)
    (hparent : p.parent? = some q) : t.createDirectories q = (.ok (), t) := by
  have hfind := find_parent ht hlocate hparent
  have hensure : t.ensureDirectory q = .ok t := by
    unfold ensureDirectory
    split
    · rename_i u hmade
      obtain ⟨middle, hmiddle, hat⟩ := find_eq_directory_iff.1 hfind
      obtain ⟨other, hother, hnone, -⟩ := createDirectory_eq_ok_iff.1 hmade
      obtain rfl : middle = other := Except.ok.inj (hmiddle.symm.trans hother)
      rw [hat] at hnone
      cases hnone
    · have hdirectory : t.isDirectory q = true := by rw [isDirectory, hfind]
      rw [if_pos hdirectory]
  have hdepth : q.written.length ≠ 0 := by
    rw [Path.written, List.length_map]
    exact fun hzero => Text.pieces_ne_nil _ _ (List.length_eq_zero_iff.1 hzero)
  obtain ⟨depth, hdepth⟩ := Nat.exists_eq_succ_of_ne_zero hdepth
  rw [createDirectories, hdepth, ensureDirectories, hensure]

/-! ## Ways that lead forward only -/

/-- Steps that never go back lead to a place below the first one. -/
theorem Leads.front (h : Leads t place steps other) (hup : ".." ∉ steps) : place <+: other := by
  induction h with
  | nil => exact List.prefix_rfl
  | dot _ ih => exact ih fun hmem => hup (List.mem_cons_of_mem _ hmem)
  | up _ _ => exact absurd List.mem_cons_self hup
  | last _ => exact List.prefix_append _ _
  | into _ _ _ _ ih =>
    exact (List.prefix_append _ _).trans (ih fun hmem => hup (List.mem_cons_of_mem _ hmem))

/-- Where there was a file before, a way forward led to it before. -/
theorem Leads.of_kept (ht : t.IsClosed) (hkept : Kept t u) (h : Leads u place steps other)
    (hup : ".." ∉ steps) (hfile : t.content? other ≠ none) : Leads t place steps other := by
  induction h with
  | nil => exact .nil
  | dot _ ih => exact .dot (ih (fun hmem => hup (List.mem_cons_of_mem _ hmem)) hfile)
  | up _ _ => exact absurd List.mem_cons_self hup
  | last hstep => exact .last hstep
  | @into place other step rest hstep hne hat h ih =>
    have hrest : ".." ∉ rest := fun hmem => hup (List.mem_cons_of_mem _ hmem)
    refine .into hstep hne ?_ (ih hrest hfile)
    obtain ⟨names, rfl⟩ := h.front hrest
    cases names with
    | nil =>
      -- The file would be the directory that the way goes through.
      rw [List.append_nil, ← hkept.content, content?_eq_none_of_directory hat] at hfile
      exact absurd rfl hfile
    | cons name names =>
      have hat : t.at? (place ++ [step] ++ name :: names) ≠ none :=
        fun hnone => hfile (content?_eq_none_of_nothing hnone)
      exact ht.of_front hat

/-- Along a path that leads forward only and along which nothing was found, there was no file. -/
theorem content?_eq_none_of_missing (ht : t.IsClosed) (hkept : Kept t u) (hup : ".." ∉ p.steps)
    (hslash : p.endsWithSlash = false) (hmissing : ∀ e, t.find p ≠ .ok e)
    (hlocate : u.locate p = .ok place) : t.content? place = none := by
  cases hcontent : t.content? place with
  | none => rfl
  | some bytes =>
    obtain ⟨first, hstart, hleads⟩ := locate_eq_ok_iff.1 hlocate
    have hbefore := hleads.of_kept ht hkept hup (by rw [hcontent]; nofun)
    have hplace : t.locate p = .ok place :=
      locate_eq_ok_iff.2 ⟨first, (hkept.start p).symm.trans hstart, hbefore⟩
    exact absurd (find_eq_file_iff.2 ⟨place, hplace, content?_eq_some_iff.1 hcontent, hslash⟩)
      (hmissing _)

end Shorthand.FileTree
