import Shorthand.CommandLine.Invocation
import Shorthand.CommandLine.Usage
import Shorthand.Text.Cut

/-!
Command lines as invocations. The arguments of a scope are read from left to right; a subcommand
reads everything behind it before the scope that it stands in is looked at as a whole. The value of
an option is looked at when the next switch or text is read, or at the end.
-/

namespace Shorthand

open Text

structure Given where
  /-- Switches and their values; of those that take none the value is empty. -/
  settled : List (Switch × String) := []
  /-- The last option, and its value if it stands in an argument of its own and has been read. -/
  pending : Option (Switch × Option String) := none
  text : Option String := none
  /-- Two hyphens have been read, behind which nothing is a switch. -/
  onlyText : Bool := false
deriving DecidableEq, Repr

inductive Word where
  | separator
  | long (name : String) (value : Option String)
  | letters (letters : List Char)
  | text (text : String)
deriving DecidableEq, Repr

/-- The shape of an argument; a hyphen alone is a text. -/
def Word.ofArgument (argument : String) : Word :=
  match argument.toList with
  | ['-', '-'] => .separator
  | '-' :: '-' :: rest =>
    match cutAtFirst? '=' rest with
    | some (name, value) => .long (String.ofList name) (some (String.ofList value))
    | none => .long (String.ofList rest) none
  | '-' :: c :: rest => .letters (c :: rest)
  | _ => .text argument

namespace Given

def awaiting? (g : Given) : Option Switch :=
  match g.pending with
  | some (s, none) => some s
  | _ => none

def value? (g : Given) (s : Switch) : Option String := g.settled.lookup s

def has (g : Given) (s : Switch) : Bool := (g.value? s).isSome

/-- Adds a switch, which may be given only once and must accept its value. -/
def add (g : Given) (s : Switch) (value : String) : Except UsageFault Given :=
  if g.has s then .error (.repeated s)
  else if !s.accepts value then .error (.valueInvalid s)
  else .ok { g with settled := (s, value) :: g.settled }

def settle (g : Given) : Except UsageFault Given :=
  match g.pending with
  | none => .ok g
  -- The value is still missing.
  | some (s, none) => .error (.valueInvalid s)
  | some (s, some value) => { g with pending := none }.add s value

def take (scope : Scope) (g : Given) (s : Switch) (value : String) : Except UsageFault Given := do
  let g ← g.settle
  match s with
  | .help => .error .helpAsked
  | .version => .error (.versionAsked scope)
  | _ => g.add s value

def await (g : Given) (s : Switch) : Except UsageFault Given := do
  let g ← g.settle
  return { g with pending := some (s, none) }

/-- Takes the letters behind a hyphen: switches without values, and then perhaps an option whose
value is what is left, without an equals sign in front. -/
def takeLetters (scope : Scope) (g : Given) : List Char → Except UsageFault Given
  | [] => .ok g
  | c :: rest =>
    match scope.switches.find? (·.short? == some c) with
    | none => .error (.argumentUnknown (String.ofList ['-', c]))
    | some s =>
      if s.takesValue then
        match rest with
        | [] => g.await s
        | '=' :: value => g.take scope s (String.ofList value)
        | value => g.take scope s (String.ofList value)
      else do
        let g ← g.take scope s ""
        takeLetters scope g rest

def takeLong (scope : Scope) (g : Given) (name : String) (value : Option String) :
    Except UsageFault Given :=
  match scope.switches.find? (·.long == name) with
  | none => .error (.argumentUnknown ("--" ++ name))
  | some s =>
    match value with
    | some value => if s.takesValue then g.take scope s value else .error (.valueUnwanted s)
    | none => if s.takesValue then g.await s else g.take scope s ""

def takeText (scope : Scope) (g : Given) (text : String) : Except UsageFault Given :=
  if scope.takesText && g.text.isNone then do
    let g ← g.settle
    return { g with text := some text }
  else if scope.needsSubcommand && !(g.onlyText && (scope.sub? text).isSome) then
    .error (.subcommandUnknown text)
  else .error (.argumentUnknown text)

/-- Takes an argument that names no subcommand. -/
def takeArgument (scope : Scope) (g : Given) (argument : String) : Except UsageFault Given :=
  if g.onlyText then g.takeText scope argument
  else
    match Word.ofArgument argument with
    | .separator => .ok { g with onlyText := true }
    | .long name value => g.takeLong scope name value
    | .letters letters => g.takeLetters scope letters
    | .text text =>
      match g.awaiting? with
      | some s => .ok { g with pending := some (s, some text) }
      | none => g.takeText scope text

/-- Ends a scope. A settings file that is named elsewhere counts where none is given, and its name
may not be empty. -/
def finish (fallback : Option String) (g : Given) : Except UsageFault Given := do
  let g ← g.settle
  if !g.has .settings && fallback == some "" then .error (.valueInvalid .settings)
  return g

def needText (g : Given) : Except UsageFault String :=
  match g.text with
  | some text => .ok text
  | none => .error .textMissing

def request (fallback : Option String) (g : Given) : Scope → Except UsageFault Request
  | .parse => do return .ask (.parse (← g.needText) (g.value? .clock) (g.has .expand))
  | .suggest => do return .ask (.suggest (← g.needText))
  | .pipe => return .ask (.pipe (g.value? .clock) (g.has .validOnly))
  | .time => do return .ask (.time (← g.needText) (g.value? .clock))
  | .showSettings => return .ask .showSettings
  | .settingsPath => return .ask .settingsPath
  | .initSettings => return .initSettings (g.has .force)
  | .completions => do return .ask (.completions (← g.needText) (g.has .install))
  -- The other scopes ask for nothing without a subcommand.
  | _ =>
    .error (if g.settled.isEmpty && fallback.isNone then .nothingAsked else .subcommandMissing)

def around (g : Given) (i : Invocation) : Invocation :=
  { i with
    form := i.form.or ((g.value? .output).bind OutputForm.ofName?)
    settings := i.settings.or (g.value? .settings)
    verbose := i.verbose || g.has .verbose }

end Given

def helpOn (scope : Scope) : List String → UsageFault
  | [] => .helpAsked
  | word :: rest =>
    match scope.sub? word with
    | some inner => helpOn inner rest
    | none => .subcommandUnknown word

namespace Invocation

def readScope (fallback : Option String) (scope : Scope) (g : Given) :
    List String → Except UsageFault Invocation
  | [] => do
    let g ← g.finish fallback
    let request ← g.request fallback scope
    return g.around { request }
  | argument :: rest =>
    match if g.onlyText || g.awaiting?.isSome then none else scope.sub? argument with
    | some .help => .error (helpOn scope rest)
    | some inner => do
      -- What is wrong behind the subcommand is told before what is wrong in front of it.
      let i ← readScope fallback inner {} rest
      let g ← g.finish fallback
      return g.around i
    | none => do
      let g ← g.takeArgument scope argument
      readScope fallback scope g rest

/-- The invocation that the arguments of the program ask for; `fallback` is the settings file to use
where they name none. -/
def read (fallback : Option String) (arguments : List String) : Except UsageFault Invocation := do
  let i ← readScope fallback .program {} arguments
  return { i with settings := i.settings.or fallback }

end Invocation

end Shorthand
