import Shorthand.Settings.Basic

/-!
What a command line asks for.
-/

namespace Shorthand

inductive Question where
  | parse (line : String) (clock : Option String) (expand : Bool)
  | suggest (text : String)
  | pipe (clock : Option String) (validOnly : Bool)
  | time (expression : String) (clock : Option String)
  | showSettings
  | settingsPath
  | completions (shell : String) (install : Bool)
deriving DecidableEq, Repr

inductive Request where
  | ask (question : Question)
  | initSettings (force : Bool)
deriving DecidableEq, Repr

structure Invocation where
  request : Request
  /-- The form of the output, when it is not the one in the settings. -/
  form : Option OutputForm := none
  /-- The settings file, when it is not that of the user. -/
  settings : Option String := none
  verbose : Bool := false
deriving DecidableEq, Repr

end Shorthand
