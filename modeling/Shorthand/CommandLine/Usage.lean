import Shorthand.CommandLine.Switch

/-!
Command lines that ask for nothing the program can do, or for help or the version instead.
-/

namespace Shorthand

inductive UsageFault where
  | helpAsked
  | versionAsked (scope : Scope)
  /-- Nothing at all stands where a subcommand is needed. -/
  | nothingAsked
  | subcommandMissing
  | subcommandUnknown (word : String)
  | argumentUnknown (word : String)
  | textMissing
  /-- The switch cannot have the value it has, or has none. -/
  | valueInvalid (switch : Switch)
  /-- The switch has a value and takes none. -/
  | valueUnwanted (switch : Switch)
  | repeated (switch : Switch)
deriving DecidableEq, Repr

namespace UsageFault

def programVersion : String := "0.1.0"

def overview : String :=
  "Parse quick-entry schedule commands and suggest completions\n\n" ++
  "Usage: quickentry [OPTIONS] <COMMAND>\n\n" ++
  "Commands:\n" ++
  "  parse <TEXT>         Parse a quick-entry command [--at HH:MM] [--expand]\n" ++
  "  suggest <TEXT>       Suggest completions for partial input\n" ++
  "  pipe                 Parse commands from stdin, one per line [--at HH:MM] [--valid-only]\n" ++
  "  time <EXPR>          Evaluate a single time expression [--at HH:MM]\n" ++
  "  config               Show, locate or create the config file (show, path, init [--force])\n" ++
  "  completions <SHELL>  Generate shell completions [--install]\n" ++
  "  help                 Print this message\n\n" ++
  "Options:\n" ++
  "  -o, --output <OUTPUT>  Output format for command results (pretty, json)\n" ++
  "  -v, --verbose          Enable debug logging on stderr\n" ++
  "      --config <PATH>    Path to the config file\n" ++
  "  -h, --help             Print help\n" ++
  "  -V, --version          Print version\n"

def message : UsageFault → String
  | helpAsked => overview
  | versionAsked scope => scope.title ++ " " ++ programVersion ++ "\n"
  | nothingAsked => overview
  | subcommandMissing => "error: a subcommand is missing\n"
  | subcommandUnknown word => "error: unrecognized subcommand '" ++ word ++ "'\n"
  | argumentUnknown word => "error: unexpected argument '" ++ word ++ "' found\n"
  | textMissing => "error: a required argument is missing\n"
  | valueInvalid switch => "error: invalid value for '--" ++ switch.long ++ "'\n"
  | valueUnwanted switch => "error: unexpected value for '--" ++ switch.long ++ "'\n"
  | repeated switch => "error: '--" ++ switch.long ++ "' cannot be used multiple times\n"

def exitCode : UsageFault → Nat
  | helpAsked => 0
  | versionAsked _ => 0
  | _ => 2

end UsageFault

end Shorthand
