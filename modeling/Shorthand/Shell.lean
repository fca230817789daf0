import Shorthand.Text.Lower

/-!
Shells that can complete the command line of the program: the scripts for them, and how to set them
up. `ofName?_name` says that every shell is known by its name.
-/

namespace Shorthand

open Text

inductive Shell where
  | bash
  | zsh
  | fish
  | powershell
  | elvish
deriving DecidableEq, Repr

namespace Shell

def name : Shell → String
  | bash => "bash"
  | zsh => "zsh"
  | fish => "fish"
  | powershell => "powershell"
  | elvish => "elvish"

/-- The shell that somebody means, in letters of either case. -/
def ofName? (text : String) : Option Shell :=
  match String.ofList (lower text.toList) with
  | "bash" => some bash
  | "zsh" => some zsh
  | "fish" => some fish
  | "powershell" => some powershell
  | "ps" => some powershell
  | "pwsh" => some powershell
  | "elvish" => some elvish
  | _ => none

@[simp]
theorem ofName?_name (s : Shell) : ofName? s.name = some s := by
  cases s <;> rfl

/-- The file that a shell reads its script from; one shell evaluates it in its profile instead. -/
def scriptFile? : Shell → Option String
  | bash => some "~/.local/share/bash-completion/completions/quickentry"
  | zsh => some "~/.zsh/completions/_quickentry"
  | fish => some "~/.config/fish/completions/quickentry.fish"
  | powershell => none
  | elvish => some "~/.config/elvish/lib/quickentry.elv"

def activation : Shell → String
  | bash => "bash-completion picks the file up on the next login shell."
  | zsh => "Put \x60fpath=(~/.zsh/completions $fpath)\x60 before \x60compinit\x60 in ~/.zshrc."
  | fish => "fish loads it automatically."
  | powershell =>
    "Add \x60quickentry completions powershell | Out-String | Invoke-Expression\x60 to $PROFILE."
  | elvish => "Add \x60use quickentry\x60 to ~/.config/elvish/rc.elv."

def instructions (s : Shell) : String :=
  (match s.scriptFile? with
  | some file =>
    "Write the script once and reload your shell:\n  quickentry completions " ++ s.name ++ " > " ++
      file ++ "\n"
  | none => "") ++
  s.activation ++ "\n"

def completedWords : String := "parse suggest pipe time config completions help"

def script : Shell → String
  | bash => "complete -W '" ++ completedWords ++ "' quickentry\n"
  | zsh => "#compdef quickentry\n_arguments '1: :(" ++ completedWords ++ ")' '*::arg:_files'\n"
  | fish =>
    "complete -c quickentry -f -n __fish_use_subcommand -a '" ++ completedWords ++ "'\n"
  | powershell =>
    "Register-ArgumentCompleter -Native -CommandName quickentry -ScriptBlock \x7b\n" ++
    "  param($word)\n" ++
    "  '" ++ completedWords ++ "'.Split(' ') | Where-Object \x7b $_ -like \"$word*\" \x7d\n" ++
    "\x7d\n"
  | elvish =>
    "set edit:completion:arg-completer[quickentry] = \x7b|@words| put " ++ completedWords ++
      " \x7d\n"

end Shell

end Shorthand
