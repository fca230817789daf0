import Shorthand.Clock.Text
import Shorthand.Files.Basic
import Shorthand.Settings.Text
import Shorthand.Slot.Read

/-!
What makes the program give up, how the user is told and with which code the process ends.
-/

namespace Shorthand

inductive Failure where
  /-- The default settings file is in the home directory, and nobody says which that is. -/
  | homeUnknown
  | settingsUnreadable (file : Path) (fault : FileFault)
  | settingsInvalid (file : Path) (fault : SettingsFault)
  | settingsTaken (file : Path)
  | directoryNotCreated (directory : Path) (fault : FileFault)
  | settingsNotWritten (file : Path) (fault : FileFault)
  | clockInvalid (text : String) (fault : ClockFault)
  | shellUnknown (name : String)
  | inputUnreadable (fault : FileFault)
  | lineUnreadable (fault : ReadFault)
  | tasksTooLong (fault : SumFault)
deriving DecidableEq, Repr

inductive FailureArea where
  | settings
  | input
  | transfer
  | defect
deriving DecidableEq, Repr

namespace FailureArea

def heading : FailureArea → String
  | settings => "Configuration error: "
  | input => "Invalid input: "
  | transfer => "I/O error: "
  | defect => "Internal error: "

def exitCode : FailureArea → Nat
  | settings => 1
  | input => 2
  | transfer => 1
  | defect => 101

end FailureArea

namespace Failure

def area : Failure → FailureArea
  | homeUnknown => .settings
  | settingsUnreadable .. => .settings
  | settingsInvalid .. => .settings
  | settingsTaken .. => .settings
  | directoryNotCreated .. => .settings
  | settingsNotWritten .. => .settings
  | clockInvalid .. => .input
  | shellUnknown .. => .input
  | inputUnreadable .. => .transfer
  | lineUnreadable .. => .defect
  | tasksTooLong .. => .defect

def reason : Failure → String
  | homeUnknown => "Could not determine home directory"
  | settingsUnreadable file fault =>
    "Failed to read config file " ++ file.text ++ ": " ++ fault.message
  | settingsInvalid file _ => "Failed to parse config file " ++ file.text
  | settingsTaken file => file.text ++ " already exists (use --force to overwrite)"
  | directoryNotCreated directory fault =>
    "Failed to create directory " ++ directory.text ++ ": " ++ fault.message
  | settingsNotWritten file fault =>
    "Failed to write config file " ++ file.text ++ ": " ++ fault.message
  | clockInvalid text fault => "Invalid clock time '" ++ text ++ "': " ++ fault.message
  | shellUnknown name =>
    "Unknown shell: " ++ name ++ ". Supported: bash, zsh, fish, powershell, elvish"
  | inputUnreadable fault => fault.message
  | lineUnreadable .cutInsideCharacter => "a time is cut inside a character"
  | tasksTooLong .pastWord => "the minutes of the tasks are past their word"

def message (f : Failure) : String := f.area.heading ++ f.reason

def exitCode (f : Failure) : Nat := f.area.exitCode

end Failure

end Shorthand
