/-!
Settings: how results are shown, what a line means where it leaves something out, and how many
completions are offered.
-/

namespace Shorthand

inductive OutputForm where
  | pretty
  | json
deriving DecidableEq, Repr

inductive ColourRule where
  | auto
  | always
  | never
deriving DecidableEq, Repr

/-- What a line means where it leaves out a length, in minutes. -/
structure LineDefaults where
  /-- Length of the block that a bare `blk` stands for. -/
  blockMinutes : UInt32 := 60
  /-- Length of a task that states none. -/
  taskMinutes : UInt32 := 30
deriving DecidableEq, Repr

structure Settings where
  form : OutputForm := .pretty
  colour : ColourRule := .auto
  line : LineDefaults := {}
  completionLimit : UInt64 := 3
deriving DecidableEq, Repr

def OutputForm.name : OutputForm → String
  | .pretty => "pretty"
  | .json => "json"

def OutputForm.ofName? : String → Option OutputForm
  | "pretty" => some .pretty
  | "json" => some .json
  | _ => none

def ColourRule.name : ColourRule → String
  | .auto => "auto"
  | .always => "always"
  | .never => "never"

def ColourRule.ofName? : String → Option ColourRule
  | "auto" => some .auto
  | "always" => some .always
  | "never" => some .never
  | _ => none

def ColourRule.applies (terminal : Bool) : ColourRule → Bool
  | .auto => terminal
  | .always => true
  | .never => false

@[simp]
theorem OutputForm.ofName?_name (f : OutputForm) : ofName? f.name = some f := by
  cases f <;> rfl

@[simp]
theorem ColourRule.ofName?_name (c : ColourRule) : ofName? c.name = some c := by
  cases c <;> rfl

end Shorthand
