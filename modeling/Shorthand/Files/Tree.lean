import Shorthand.Files.Basic

/-!
Files and directories as a value. `at?_put` says that putting an entry somewhere changes nothing
anywhere else.
-/

namespace Shorthand

inductive Entry where
  | file (content : ByteArray)
  | directory

abbrev Place := List String

/-- The entries below the root, and the directory in which paths start that do not start at the
root. -/
structure FileTree where
  entries : List (Place × Entry) := []
  here : Place := []

namespace FileTree

def at? (t : FileTree) (place : Place) : Option Entry :=
  if place.isEmpty then some .directory else t.entries.lookup place

def put (t : FileTree) (place : Place) (e : Entry) : FileTree :=
  { t with entries := (place, e) :: t.entries.filter (·.1 ≠ place) }

def files (t : FileTree) : List (Place × ByteArray) :=
  t.entries.filterMap fun (place, e) =>
    match e with
    | .file content => some (place, content)
    | .directory => none

/-- The place to which steps lead from a directory. All steps but the last have to lead to
directories. -/
def walk (t : FileTree) : Place → List String → Except FileFault Place
  | place, [] => .ok place
  | place, step :: rest =>
    if step = "." then walk t place rest
    else if step = ".." then walk t place.dropLast rest
    else if Path.maxNameBytes < step.utf8ByteSize then .error .nameTooLong
    else
      let next := place ++ [step]
      if rest.isEmpty then .ok next
      else
        match t.at? next with
        | none => .error .notFound
        | some (.file _) => .error .notDirectory
        | some .directory => walk t next rest

/-- The directory in which a path starts, unless nothing can have such a path. -/
def start (t : FileTree) (p : Path) : Except FileFault Place :=
  if p.text.toList.contains '\x00' then .error .zeroInName
  else if Path.maxBytes < p.text.utf8ByteSize then .error .nameTooLong
  else .ok (if p.isAbsolute then [] else t.here)

/-- The place that a path names, whether or not anything is there. -/
def locate (t : FileTree) (p : Path) : Except FileFault Place := do
  t.walk (← t.start p) p.steps

def locateParent (t : FileTree) (p : Path) : Except FileFault Place := do
  t.walk (← t.start p) (p.steps.dropLast ++ ["."])

def find (t : FileTree) (p : Path) : Except FileFault Entry := do
  let place ← t.locate p
  match t.at? place with
  | none => .error .notFound
  | some (.file content) => if p.endsWithSlash then .error .notDirectory else .ok (.file content)
  | some .directory => .ok .directory

def isDirectory (t : FileTree) (p : Path) : Bool :=
  match t.find p with
  | .ok .directory => true
  | _ => false

def read (t : FileTree) (p : Path) : Except FileFault ByteArray := do
  match ← t.find p with
  | .file content => .ok content
  | .directory => .error .isDirectory

def createDirectory (t : FileTree) (p : Path) : Except FileFault FileTree := do
  let place ← t.locate p
  match t.at? place with
  | none => .ok (t.put place .directory)
  | some _ => .error .exists

def ensureDirectory (t : FileTree) (p : Path) : Except FileFault FileTree :=
  match t.createDirectory p with
  | .ok t => .ok t
  | .error fault => if t.isDirectory p then .ok t else .error fault

/-- Ensures a directory, and first, where it has nowhere to be, the directory that it is in. What is
new stays even if a later step fails. -/
def ensureDirectories : Nat → FileTree → Path → Except FileFault Unit × FileTree
  | 0, t, _ => (.ok (), t)
  | depth + 1, t, p =>
    match t.ensureDirectory p with
    | .ok t => (.ok (), t)
    | .error .notFound =>
      -- The directory above is missing too.
      match p.parent? with
      | none => (.error .notFound, t)
      | some above =>
        match ensureDirectories depth t above with
        | (.error fault, t) => (.error fault, t)
        | (.ok (), t) =>
          match t.ensureDirectory p with
          | .ok t => (.ok (), t)
          | .error fault => (.error fault, t)
    | .error fault => (.error fault, t)

def createDirectories (t : FileTree) (p : Path) : Except FileFault Unit × FileTree :=
  ensureDirectories p.written.length t p

def write (t : FileTree) (p : Path) (content : ByteArray) : Except FileFault FileTree := do
  -- A path with a slash at its end makes no file, whatever its last name is.
  if p.endsWithSlash then
    let _ ← t.locateParent p
    .error .isDirectory
  else
    let place ← t.locate p
    match t.at? place with
    | some .directory => .error .isDirectory
    | _ => .ok (t.put place (.file content))

def access : FileAccess (StateM FileTree) where
  read p := do return (← get).read p
  createDirectories p := modifyGet (createDirectories · p)
  write p text := modifyGet fun t =>
    match t.write p text.toUTF8 with
    | .ok t => (.ok (), t)
    | .error fault => (.error fault, t)

/-- Taking out the entry of one place does not change what another place has. -/
theorem lookup_filter_ne (places : List (Place × Entry)) {a b : Place} (h : a ≠ b) :
    (places.filter (·.1 ≠ b)).lookup a = places.lookup a := by
  induction places with
  | nil => rfl
  | cons x rest ih =>
    obtain ⟨c, e⟩ := x
    by_cases hc : c = b
    · subst hc
      have hac : (a == c) = false := by simpa using h
      simpa [List.lookup_cons, hac] using ih
    · by_cases ha : a = c
      · subst ha
        simp [hc]
      · have hac : (a == c) = false := by simpa using ha
        simpa [hc, List.lookup_cons, hac] using ih

/-- A new entry is found at its place, and nothing else changes. -/
theorem at?_put {t : FileTree} {place other : Place} {e : Entry} (h : place ≠ []) :
    (t.put place e).at? other = if other = place then some e else t.at? other := by
  by_cases ho : other = place
  · subst ho
    simp [at?, put, h]
  · have hb : (other == place) = false := by simpa using ho
    by_cases hn : other = []
    · subst hn
      simp [at?, ho]
    · simpa [at?, put, ho, hn, List.lookup_cons, hb] using
        lookup_filter_ne t.entries ho

end FileTree

end Shorthand
