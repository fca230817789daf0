import Shorthand.CommandLine.Read
import Shorthand.CommandLine.Run
import Std.Time.Zoned

/-!
The program: it reads its surroundings, carries out what its arguments ask for and prints the
result.
-/

namespace Shorthand

def FileFault.ofError : IO.Error → FileFault
  | .noFileOrDirectory .. => .notFound
  | .alreadyExists .. => .exists
  | .inappropriateType _ code _ => if code = 21 then .isDirectory else .notDirectory
  | .invalidArgument _ code message => if code = 36 then .nameTooLong else .other message
  | .permissionDenied .. => .other "Permission denied (os error 13)"
  | e => .other (toString e)

def attempt {α : Type} (action : IO α) : IO (Except FileFault α) :=
  try return .ok (← action)
  catch e => return .error (FileFault.ofError e)

def disk : FileAccess IO where
  read p := attempt (IO.FS.readBinFile p.text)
  createDirectories p := attempt (IO.FS.createDirAll p.text)
  write p text := attempt (IO.FS.writeFile p.text text)

/-- What the clock on the wall shows; a leap second counts as the second before it. -/
def wallClock : IO ClockReading := do
  let t ← Std.Time.PlainTime.now
  return {
    hour := ⟨t.hour.toNat % 24, Nat.mod_lt _ (by decide)⟩
    minute := ⟨t.minute.toNat % 60, Nat.mod_lt _ (by decide)⟩
    second := ⟨min t.second.toNat 59, by omega⟩ }

partial def readToEnd (stream : IO.FS.Stream) (before : ByteArray) : IO ByteArray := do
  let bytes ← stream.read 65536
  if bytes.isEmpty then return before else readToEnd stream (before ++ bytes)

/-- What is around the program; the input is read only where it is asked for. -/
def surroundings (i : Invocation) : IO Surroundings := do
  let input ← match i.request with
    | .ask (.pipe ..) => readToEnd (← IO.getStdin) ByteArray.empty
    | _ => pure ByteArray.empty
  -- The user may ask for output without colours.
  let plain := (← IO.getEnv "NO_COLOR").isSome
  return {
    now := ← wallClock, home := ← IO.getEnv "HOME", input
    terminal := (← (← IO.getStdout).isTty) && !plain }

def carryOut (i : Invocation) : IO UInt32 := do
  let around ← surroundings i
  if i.verbose then IO.eprintln ("settings file: " ++ (i.settingsFile around.home).text)
  match ← i.run disk around with
  | .ok text =>
    IO.print (Invocation.printed text)
    return 0
  | .error failure =>
    IO.eprintln ("error: " ++ failure.message)
    return failure.exitCode.toUInt32

end Shorthand

open Shorthand in
def main (arguments : List String) : IO UInt32 := do
  match Invocation.read (← IO.getEnv "QUICKENTRY_CONFIG") arguments with
  | .ok i => carryOut i
  | .error fault =>
    if fault.exitCode = 0 then IO.print fault.message else IO.eprint fault.message
    return fault.exitCode.toUInt32
