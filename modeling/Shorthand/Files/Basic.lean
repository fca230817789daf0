import Shorthand.Files.Path

/-!
What a program may do with files: read one, make directories and write one. `FileAccess m` offers
this to programs whose effects are those of `m`, so that one program runs on a disk and on a value.
-/

namespace Shorthand

inductive FileFault where
  | notFound
  | exists
  | notDirectory
  | isDirectory
  /-- A name in the path, or the whole path, is longer than the system takes. -/
  | nameTooLong
  | zeroInName
  /-- The bytes are not text in UTF-8. -/
  | notText
  | other (message : String)
deriving DecidableEq, Repr

namespace FileFault

def message : FileFault → String
  | notFound => "No such file or directory (os error 2)"
  | .exists => "File exists (os error 17)"
  | notDirectory => "Not a directory (os error 20)"
  | isDirectory => "Is a directory (os error 21)"
  | nameTooLong => "File name too long (os error 36)"
  | zeroInName => "file name contained an unexpected NUL byte"
  | notText => "stream did not contain valid UTF-8"
  | other message => message

def isMissing : FileFault → Bool
  | notFound => true
  | notDirectory => true
  | nameTooLong => true
  | zeroInName => true
  | _ => false

end FileFault

/-- The use of files by programs with the effects of `m`. -/
structure FileAccess (m : Type → Type) where
  read : Path → m (Except FileFault ByteArray)
  /-- Makes a directory and those that it is in, as far as they are missing. -/
  createDirectories : Path → m (Except FileFault Unit)
  write : Path → String → m (Except FileFault Unit)

def FileAccess.isTaken {m : Type → Type} [Monad m] (files : FileAccess m) (p : Path) : m Bool := do
  match ← files.read p with
  | .ok _ => return true
  | .error fault => return !fault.isMissing

end Shorthand
