import Shorthand.Yaml.Cursor

/-!
Blanks and line breaks inside a scalar. Line breaks are folded: one becomes a blank, and of several
the first is dropped; blanks around them are dropped too.
-/

namespace Shorthand.Yaml

structure Gap where
  /-- The blanks, when there is no line break. -/
  spaces : List Char := []
  /-- The first line break, or nothing where an escape hides it. -/
  first : Option (List Char) := none
  /-- The line breaks after the first. -/
  more : List Char := []
deriving DecidableEq, Repr

namespace Gap

def folded (g : Gap) : List Char :=
  match g.first with
  | none => g.spaces
  | some ['\n'] => if g.more.isEmpty then [' '] else g.more
  | some first => first ++ g.more

/-- The gap with one more blank or line break in it; blanks around a line break are dropped. -/
def push (g : Gap) (x : Char) : Gap :=
  if isBreak x then
    if g.first.isNone then { g with spaces := [], first := some [x] }
    else { g with more := g.more ++ [x] }
  else if g.first.isNone then { g with spaces := g.spaces ++ [x] } else g

def isBroken (g : Gap) : Bool := g.first.isSome

end Gap

end Shorthand.Yaml
