import Shorthand.Text.Blank

/-!
Paths of files, as somebody writes them: steps with slashes between them.
-/

namespace Shorthand

open Text

structure Path where
  text : String
deriving DecidableEq, Repr

namespace Path

def written (p : Path) : List String := (pieces (· == '/') p.text.toList).map String.ofList

/-- The steps that lead along a path; slashes in a row count as one. -/
def steps (p : Path) : List String := p.written.filter (· ≠ "")

def maxNameBytes : Nat := 255

def maxBytes : Nat := 4095

def isAbsolute (p : Path) : Bool := p.text.toList.head? = some '/'

def endsWithSlash (p : Path) : Bool := p.text.toList.getLast? = some '/'

def child (p : Path) (name : String) : Path :=
  if p.text.isEmpty || p.endsWithSlash then ⟨p.text ++ name⟩ else ⟨p.text ++ "/" ++ name⟩

/-- The steps without those at the end that lead nowhere. -/
def withoutIdleEnd (steps : List String) : List String :=
  (steps.reverse.dropWhile fun s => s = "" || s = ".").reverse

/-- The directory that a path leads through last, if it is written. -/
def parent? (p : Path) : Option Path :=
  match p.written with
  | [] => none
  | first :: rest =>
    let below := withoutIdleEnd rest
    if below.isEmpty then none
    else
      let above := String.intercalate "/" (first :: withoutIdleEnd below.dropLast)
      some ⟨if above.isEmpty then "/" else above⟩

end Path

end Shorthand
