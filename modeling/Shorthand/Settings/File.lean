import Shorthand.Failure

/-!
The settings file on a disk or in a tree: where it is, loading it and saving it. No file means the
default settings. `ofBytes_toUTF8` says that the bytes of a text hold the settings of the text.
-/

namespace Shorthand

namespace Settings

def fileIn (home : Path) : Path := (home.child ".quickentry").child "config.yaml"

/-- The settings file of a user; of one without a home directory it is below the working directory.
-/
def defaultFile (home : Option String) : Path := fileIn ⟨home.getD ""⟩

variable {m : Type → Type} [Monad m]

def ofBytes (file : Path) (bytes : ByteArray) : Except Failure Settings :=
  match String.fromUTF8? bytes with
  | none => .error (.settingsUnreadable file .notText)
  | some text =>
    match ofText text with
    | .ok settings => .ok settings
    | .error fault => .error (.settingsInvalid file fault)

/-- A text that is written as bytes is read back from them. -/
theorem fromUTF8?_toUTF8 (text : String) : String.fromUTF8? text.toUTF8 = some text := by
  unfold String.fromUTF8?
  split
  · rfl
  · rename_i h
    exact absurd text.isValidUTF8 h

theorem ofBytes_toUTF8 (file : Path) {text : String} {s : Settings} (h : ofText text = .ok s) :
    ofBytes file text.toUTF8 = .ok s := by
  rw [ofBytes, fromUTF8?_toUTF8]
  simp only [h]

/-- The settings in a file; the defaults where there is none. -/
def load (files : FileAccess m) (file : Path) : m (Except Failure Settings) := do
  match ← files.read file with
  | .ok bytes => return ofBytes file bytes
  | .error fault =>
    return if fault.isMissing then .ok {} else .error (.settingsUnreadable file fault)

def loadFromHome (files : FileAccess m) : Option String → m (Except Failure Settings)
  | some home => load files (fileIn ⟨home⟩)
  | none => return .error .homeUnknown

def prepare (files : FileAccess m) (file : Path) : m (Except Failure Unit) := do
  match file.parent? with
  | none => return .ok ()
  | some directory =>
    match ← files.createDirectories directory with
    | .ok () => return .ok ()
    | .error fault => return .error (.directoryNotCreated directory fault)

def save (files : FileAccess m) (file : Path) (s : Settings) : m (Except Failure Unit) := do
  match ← prepare files file with
  | .error failure => return .error failure
  | .ok () =>
    match ← files.write file s.toText with
    | .ok () => return .ok ()
    | .error fault => return .error (.settingsNotWritten file fault)

end Settings

end Shorthand
