import Shorthand.Number.Binary

/-!
Completions: what a partly typed line may become, and how sure that is.
-/

namespace Shorthand

/-- How sure a completion is, usually between zero and one. -/
abbrev Confidence := Binary .single

def Confidence.ofPercent (n : Nat) : Confidence := Binary.ofRatio .single false n 100

structure Completion where
  text : String
  description : String
  confidence : Confidence
  shownIn : Option String := none
deriving DecidableEq, Repr

end Shorthand
