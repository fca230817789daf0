import Shorthand.Files.Tree
import Shorthand.Proofs.Chain

/-!
What changes in a tree of files. `FileTree.kept_createDirectories` says that making directories
leaves every file as it is, and `FileTree.write_eq_ok_iff` that writing changes one file; either way
a path leads to where it led before.
-/

namespace Shorthand.FileTree

variable {t u v : FileTree} {place other : Place} {steps : List String} {p : Path}
  {bytes : ByteArray}

/-! ## Files -/

def content? (t : FileTree) (place : Place) : Option ByteArray :=
  match t.at? place with
  | some (.file bytes) => some bytes
  | _ => none

theorem content?_eq_some_iff :
    t.content? place = some bytes ↔ t.at? place = some (.file bytes) := by
  unfold content?
  split
  · rename_i h
    rw [h]
    exact ⟨fun hbytes => by cases hbytes; rfl, fun hbytes => by cases hbytes; rfl⟩
  · rename_i h
    exact ⟨nofun, fun hbytes => absurd hbytes (h bytes)⟩

theorem content?_eq_none_of_directory (h : t.at? place = some .directory) :
    t.content? place = none := by
  rw [content?, h]

theorem content?_eq_none_of_nothing (h : t.at? place = none) : t.content? place = none := by
  rw [content?, h]

/-! ## Ways -/

/-- A name of a file or a directory, and not one of the steps that lead back or nowhere. -/
structure IsName (step : String) : Prop where
  ne_dot : step ≠ "."
  ne_up : step ≠ ".."
  short : step.utf8ByteSize ≤ Path.maxNameBytes

inductive Leads (t : FileTree) : Place → List String → Place → Prop
  | nil {place : Place} : Leads t place [] place
  | dot {place other : Place} {rest : List String} (h : Leads t place rest other) :
      Leads t place ("." :: rest) other
  | up {place other : Place} {rest : List String} (h : Leads t place.dropLast rest other) :
      Leads t place (".." :: rest) other
  | last {place : Place} {step : String} (hstep : IsName step) :
      Leads t place [step] (place ++ [step])
  | into {place other : Place} {step : String} {rest : List String} (hstep : IsName step)
      (hne : rest ≠ []) (hat : t.at? (place ++ [step]) = some .directory)
      (h : Leads t (place ++ [step]) rest other) : Leads t place (step :: rest) other

theorem Leads.of_walk (h : t.walk place steps = .ok other) : Leads t place steps other := by
  -- By induction on the steps, with a case of `Leads` for each way that `walk` takes one.
  induction steps generalizing place with
  | nil =>
    cases h
    exact .nil
  | cons step rest ih =>
    unfold walk at h
    dsimp only at h
    split at h
    · rename_i hdot
      rw [hdot]
      exact .dot (ih h)
    rename_i hdot
    split at h
    · rename_i hup
      rw [hup]
      exact .up (ih h)
    rename_i hup
    split at h
    · cases h
    rename_i hshort
    have hstep : IsName step := ⟨hdot, hup, Nat.le_of_not_lt hshort⟩
    split at h
    · rename_i hrest
      cases h
      rw [List.isEmpty_iff.1 hrest]
      exact .last hstep
    · rename_i hrest
      split at h
      · cases h
      · cases h
      · rename_i hat
        exact .into hstep (fun hnil => hrest (List.isEmpty_iff.2 hnil)) hat (ih h)

theorem Leads.walk (h : Leads t place steps other) : t.walk place steps = .ok other := by
  induction h with
  | nil => rfl
  | dot _ ih => rw [FileTree.walk, if_pos rfl, ih]
  | up _ ih => rw [FileTree.walk, if_neg (by decide), if_pos rfl, ih]
  | last hstep =>
    rw [FileTree.walk, if_neg hstep.ne_dot, if_neg hstep.ne_up,
      if_neg (Nat.not_lt_of_le hstep.short)]
    rfl
  | @into place other step rest hstep hne hat _ ih =>
    rw [FileTree.walk, if_neg hstep.ne_dot, if_neg hstep.ne_up,
      if_neg (Nat.not_lt_of_le hstep.short)]
    show (if rest.isEmpty = true then _ else _) = _
    rw [if_neg fun hnil => hne (List.isEmpty_iff.1 hnil), hat]
    exact ih

/-- Walking finds the place that the steps lead to, and fails where they lead nowhere. -/
theorem walk_eq_ok_iff : t.walk place steps = .ok other ↔ Leads t place steps other :=
  ⟨.of_walk, Leads.walk⟩

/-- A path names the place that its steps lead to from where it starts. -/
theorem locate_eq_ok_iff : t.locate p = .ok place ↔
    ∃ first, t.start p = .ok first ∧ Leads t first p.steps place := by
  simp only [locate, bind_eq_ok_iff, walk_eq_ok_iff]

/-! ## Trees that grow -/

/-- Every directory of `t` is one of `u`, and paths start in the same one. -/
structure Grows (t u : FileTree) : Prop where
  here : u.here = t.here
  directory : ∀ place, t.at? place = some .directory → u.at? place = some .directory

theorem Grows.refl (t : FileTree) : Grows t t := ⟨rfl, fun _ => id⟩

theorem Grows.trans (h : Grows t u) (h' : Grows u v) : Grows t v :=
  ⟨h'.here.trans h.here, fun place hplace => h'.directory place (h.directory place hplace)⟩

/-- `u` has the files of `t` and no others, with the same bytes; there may be more directories. -/
structure Kept (t u : FileTree) : Prop extends Grows t u where
  content : ∀ place, u.content? place = t.content? place

theorem Kept.refl (t : FileTree) : Kept t t := ⟨.refl t, fun _ => rfl⟩

theorem Kept.trans (h : Kept t u) (h' : Kept u v) : Kept t v :=
  ⟨h.toGrows.trans h'.toGrows, fun place => (h'.content place).trans (h.content place)⟩

/-- Steps lead to the same place when there are more directories. -/
theorem Leads.grows (h : Leads t place steps other) (hgrows : Grows t u) :
    Leads u place steps other := by
  induction h with
  | nil => exact .nil
  | dot _ ih => exact .dot ih
  | up _ ih => exact .up ih
  | last hstep => exact .last hstep
  | into hstep hne hat _ ih => exact .into hstep hne (hgrows.directory _ hat) ih

theorem Grows.start (h : Grows t u) (p : Path) : u.start p = t.start p := by
  rw [FileTree.start, FileTree.start, h.here]

/-- A path leads to where it led before. -/
theorem Grows.locate (h : Grows t u) (hlocate : t.locate p = .ok place) :
    u.locate p = .ok place := by
  obtain ⟨first, hstart, hleads⟩ := locate_eq_ok_iff.1 hlocate
  exact locate_eq_ok_iff.2 ⟨first, (h.start p).trans hstart, hleads.grows h⟩

/-! ## One more entry -/

theorem ne_nil_of_at? (h : t.at? place ≠ some .directory) : place ≠ [] := by
  rintro rfl
  exact h rfl

/-- Writing a file changes the bytes at its place only. -/
theorem content?_put_file (h : t.at? place ≠ some .directory) :
    (t.put place (.file bytes)).content? other =
      if other = place then some bytes else t.content? other := by
  have hput : (t.put place (.file bytes)).at? other =
      if other = place then some (.file bytes) else t.at? other := at?_put (ne_nil_of_at? h)
  by_cases hother : other = place
  · rw [if_pos hother] at hput ⊢
    exact content?_eq_some_iff.2 hput
  · rw [if_neg hother] at hput ⊢
    rw [content?, hput, content?]

theorem grows_put (h : t.at? place ≠ some .directory) (e : Entry) : Grows t (t.put place e) := by
  refine ⟨rfl, fun other hother => ?_⟩
  rw [at?_put (ne_nil_of_at? h), if_neg, hother]
  rintro rfl
  exact h hother

/-- A new directory where nothing was leaves the files as they are. -/
theorem kept_put_directory (h : t.at? place = none) : Kept t (t.put place .directory) := by
  have hne : t.at? place ≠ some .directory := by
    rw [h]
    nofun
  refine ⟨grows_put hne _, fun other => ?_⟩
  rw [content?, at?_put (ne_nil_of_at? hne)]
  by_cases hother : other = place
  · rw [if_pos hother, hother, content?_eq_none_of_nothing h]
  · rw [if_neg hother, content?]

/-! ## Making directories -/

/-- A directory is made where nothing is, in a directory that is there. -/
theorem createDirectory_eq_ok_iff : t.createDirectory p = .ok u ↔
    ∃ place, t.locate p = .ok place ∧ t.at? place = none ∧ u = t.put place .directory := by
  rw [createDirectory, bind_eq_ok_iff]
  refine exists_congr fun place => and_congr_right fun _ => ?_
  cases t.at? place with
  | none => exact ⟨fun h => ⟨rfl, (Except.ok.inj h).symm⟩, fun h => h.2 ▸ rfl⟩
  | some e => exact ⟨nofun, fun h => absurd h.1 nofun⟩

/-- Ensuring a directory makes it or leaves everything as it is. -/
theorem ensureDirectory_cases (h : t.ensureDirectory p = .ok u) :
    t.createDirectory p = .ok u ∨ u = t := by
  unfold ensureDirectory at h
  split at h
  · rename_i hmade
    cases h
    exact Or.inl hmade
  · split at h
    · cases h
      exact Or.inr rfl
    · cases h

/-- A property of trees that one new directory keeps is kept by any number of them. -/
theorem createDirectories_induction {r : FileTree → FileTree → Prop} (hrefl : ∀ t, r t t)
    (htrans : ∀ t u v, r t u → r u v → r t v)
    (hmade : ∀ t p u, t.createDirectory p = .ok u → r t u) (t : FileTree) (p : Path) :
    r t (t.createDirectories p).2 := by
  have hensure : ∀ {t u : FileTree} {p : Path}, t.ensureDirectory p = .ok u → r t u := by
    intro t u p h
    rcases ensureDirectory_cases h with h | rfl
    · exact hmade t p u h
    · exact hrefl u
  -- By induction on the number of directories that may be missing above the path.
  have hdepth : ∀ (depth : Nat) (t : FileTree) (p : Path), r t (ensureDirectories depth t p).2 := by
    intro depth
    induction depth with
    | zero => exact fun t _ => hrefl t
    | succ depth ih =>
      intro t p
      unfold ensureDirectories
      split
      · exact hensure ‹_›
      · split
        · exact hrefl t
        · rename_i above _
          have habove := ih t above
          split
          · rename_i hfault
            rwa [hfault] at habove
          · rename_i u hdone
            rw [hdone] at habove
            split
            · exact htrans _ _ _ habove (hensure ‹_›)
            · exact habove
      · exact hrefl t
  exact hdepth _ t p

/-- Making directories leaves the files as they are, even if it fails on the way. -/
theorem kept_createDirectories (t : FileTree) (p : Path) : Kept t (t.createDirectories p).2 := by
  refine createDirectories_induction .refl (fun _ _ _ => .trans) (fun t p u h => ?_) t p
  obtain ⟨place, -, hat, rfl⟩ := createDirectory_eq_ok_iff.1 h
  exact kept_put_directory hat

/-! ## Reading and writing -/

/-- A path leads to a file if one is at its place, and no slash behind it asks for a directory. -/
theorem find_eq_file_iff : t.find p = .ok (.file bytes) ↔
    ∃ place, t.locate p = .ok place ∧ t.at? place = some (.file bytes) ∧
      p.endsWithSlash = false := by
  rw [find, bind_eq_ok_iff]
  refine exists_congr fun place => and_congr_right fun _ => ?_
  cases t.at? place with
  | none => simp
  | some e =>
    cases e with
    | directory => simp
    | file content => cases p.endsWithSlash <;> simp

theorem find_eq_directory_iff : t.find p = .ok .directory ↔
    ∃ place, t.locate p = .ok place ∧ t.at? place = some .directory := by
  rw [find, bind_eq_ok_iff]
  refine exists_congr fun place => and_congr_right fun _ => ?_
  cases t.at? place with
  | none => simp
  | some e =>
    cases e with
    | directory => simp
    | file content => cases p.endsWithSlash <;> simp

theorem read_eq_ok_iff : t.read p = .ok bytes ↔ t.find p = .ok (.file bytes) := by
  rw [read, bind_eq_ok_iff]
  constructor
  · rintro ⟨e, he, h⟩
    cases e with
    | file content =>
      cases h
      exact he
    | directory => cases h
  · intro h
    exact ⟨_, h, rfl⟩

/-- A file is written unless its path ends with a slash, leads nowhere or names a directory. -/
theorem write_eq_ok_iff : t.write p bytes = .ok u ↔
    p.endsWithSlash = false ∧ ∃ place, t.locate p = .ok place ∧
      t.at? place ≠ some .directory ∧ u = t.put place (.file bytes) := by
  unfold write
  cases p.endsWithSlash with
  | true =>
    rw [if_pos rfl, bind_eq_ok_iff]
    constructor
    · rintro ⟨-, -, h⟩
      cases h
    · rintro ⟨h, -⟩
      cases h
  | false =>
    rw [if_neg nofun, bind_eq_ok_iff, eq_self_iff_true, true_and]
    refine exists_congr fun place => and_congr_right fun _ => ?_
    constructor
    · intro h
      split at h
      · cases h
      · rename_i hne
        exact ⟨hne, (Except.ok.inj h).symm⟩
    · rintro ⟨hne, rfl⟩
      split
      · rename_i hat
        exact absurd hat hne
      · rfl

end Shorthand.FileTree
