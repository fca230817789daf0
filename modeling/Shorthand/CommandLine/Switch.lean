import Shorthand.Settings.Basic

/-!
The words of the command line: switches, which stand behind hyphens, and scopes, which are the
program itself and the subcommands below it. Scopes say which switches and which subcommands they
know; `long_injective` says that a name belongs to one switch only.
-/

namespace Shorthand

inductive Switch where
  | output
  | verbose
  | settings
  | help
  | version
  | clock
  | expand
  | validOnly
  | force
  | install
deriving DecidableEq, Repr

namespace Switch

def long : Switch → String
  | output => "output"
  | verbose => "verbose"
  | settings => "config"
  | help => "help"
  | version => "version"
  | clock => "at"
  | expand => "expand"
  | validOnly => "valid-only"
  | force => "force"
  | install => "install"

theorem long_injective {s t : Switch} (h : s.long = t.long) : s = t := by
  revert h
  cases s <;> cases t <;> decide

def short? : Switch → Option Char
  | output => some 'o'
  | verbose => some 'v'
  | help => some 'h'
  | version => some 'V'
  | expand => some 'e'
  | force => some 'f'
  | install => some 'i'
  | settings => none
  | clock => none
  | validOnly => none

def takesValue : Switch → Bool
  | output => true
  | settings => true
  | clock => true
  | _ => false

/-- The switch may have this value. What a clock shows is looked at only when it is needed. -/
def accepts : Switch → String → Bool
  | output, value => (OutputForm.ofName? value).isSome
  | settings, value => !value.isEmpty
  | _, _ => true

end Switch

inductive Scope where
  | program
  | parse
  | suggest
  | pipe
  | time
  | settings
  | showSettings
  | settingsPath
  | initSettings
  | completions
  | help
deriving DecidableEq, Repr

namespace Scope

def title : Scope → String
  | program => "quickentry"
  | parse => "quickentry-parse"
  | suggest => "quickentry-suggest"
  | pipe => "quickentry-pipe"
  | time => "quickentry-time"
  | settings => "quickentry-config"
  | showSettings => "quickentry-config-show"
  | settingsPath => "quickentry-config-path"
  | initSettings => "quickentry-config-init"
  | completions => "quickentry-completions"
  | help => "quickentry-help"

def ownSwitches : Scope → List Switch
  | parse => [.clock, .expand]
  | pipe => [.clock, .validOnly]
  | time => [.clock]
  | initSettings => [.force]
  | completions => [.install]
  | _ => []

def switches (s : Scope) : List Switch :=
  [.output, .verbose, .settings, .help, .version] ++ s.ownSwitches

def sub? : Scope → String → Option Scope
  | program, "parse" => some parse
  | program, "p" => some parse
  | program, "suggest" => some suggest
  | program, "s" => some suggest
  | program, "pipe" => some pipe
  | program, "time" => some time
  | program, "config" => some settings
  | program, "completions" => some completions
  | program, "help" => some help
  | settings, "show" => some showSettings
  | settings, "path" => some settingsPath
  | settings, "init" => some initSettings
  | settings, "help" => some help
  | _, _ => none

def needsSubcommand : Scope → Bool
  | program => true
  | settings => true
  | _ => false

def takesText : Scope → Bool
  | parse => true
  | suggest => true
  | time => true
  | completions => true
  | _ => false

end Scope

end Shorthand
