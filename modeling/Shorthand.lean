import Shorthand.Clock.Text
import Shorthand.Clock.Time
import Shorthand.Command.Basic
import Shorthand.Command.Head
import Shorthand.Command.Preview
import Shorthand.Command.Read
import Shorthand.CommandLine.Invocation
import Shorthand.CommandLine.Read
import Shorthand.CommandLine.Run
import Shorthand.CommandLine.Switch
import Shorthand.CommandLine.Usage
import Shorthand.Completion.Basic
import Shorthand.Completion.Offer
import Shorthand.Failure
import Shorthand.Files.Basic
import Shorthand.Files.Path
import Shorthand.Files.Tree
import Shorthand.Json.Basic
import Shorthand.Json.Read
import Shorthand.Main
import Shorthand.Number.Binary
import Shorthand.Number.Numeral
import Shorthand.Number.Shortest
import Shorthand.Proofs.Chain
import Shorthand.Proofs.Command.BlockLine
import Shorthand.Proofs.Command.Dispatch
import Shorthand.Proofs.Command.Fault
import Shorthand.Proofs.Command.Keyword
import Shorthand.Proofs.Command.Plain
import Shorthand.Proofs.Command.Rules
import Shorthand.Proofs.Command.WellFormed
import Shorthand.Proofs.Slot.Clock
import Shorthand.Proofs.Slot.Fault
import Shorthand.Proofs.Slot.Grammar
import Shorthand.Proofs.Slot.Group
import Shorthand.Proofs.Slot.Shape
import Shorthand.Proofs.Slot.Spelling
import Shorthand.Proofs.Task.Parts
import Shorthand.Proofs.Task.Spelling
import Shorthand.Proofs.Text.Number
import Shorthand.Proofs.Text.Pieces
import Shorthand.Proofs.Text.Run
import Shorthand.Proofs.Text.Words
import Shorthand.Report.Data
import Shorthand.Report.Pretty
import Shorthand.Report.Style
import Shorthand.Settings.Basic
import Shorthand.Settings.File
import Shorthand.Settings.Text
import Shorthand.Shell
import Shorthand.Slot.Basic
import Shorthand.Slot.Read
import Shorthand.Slot.Shape
import Shorthand.Task
import Shorthand.Text.Blank
import Shorthand.Text.Cut
import Shorthand.Text.Digit
import Shorthand.Text.Hex
import Shorthand.Text.Lower
import Shorthand.Yaml.Cursor
import Shorthand.Yaml.Directive
import Shorthand.Yaml.Document
import Shorthand.Yaml.Fault
import Shorthand.Yaml.Node
import Shorthand.Yaml.Node.Read
import Shorthand.Yaml.Scalar.Block
import Shorthand.Yaml.Scalar.Gap
import Shorthand.Yaml.Scalar.Plain
import Shorthand.Yaml.Scalar.Quoted
import Shorthand.Yaml.Tag
import Shorthand.Yaml.Token
import Shorthand.Yaml.Token.Lexer
import Shorthand.Yaml.Token.Read
import Shorthand.Proofs.Command.Clock
import Shorthand.Proofs.Command.Batch
import Shorthand.Proofs.Text.Bytes
import Shorthand.Proofs.CommandLine.Pipe
import Shorthand.Proofs.Completion.Block
import Shorthand.Proofs.Completion.Event
import Shorthand.Proofs.Completion.LastWord
import Shorthand.Proofs.Command.Synonym
import Shorthand.Proofs.Command.Time
import Shorthand.Proofs.Task.LetterCase
import Shorthand.Proofs.Command.LetterCase
import Shorthand.Proofs.Command.Spacing
import Shorthand.Proofs.Files.Tree
import Shorthand.Proofs.Files.Path
import Shorthand.Proofs.Files.Closed
import Shorthand.Proofs.Settings.File
import Shorthand.Proofs.CommandLine.Runs
import Shorthand.Proofs.Json.Written
import Shorthand.Proofs.Json.Printed
import Shorthand.Proofs.Json.Same
import Shorthand.Proofs.Json.Fields
import Shorthand.Proofs.Report.Recovered
import Shorthand.Proofs.Task.Notation
import Shorthand.Proofs.Command.TaskLine
import Shorthand.Proofs.Command.EventWords
import Shorthand.Proofs.Yaml.Idle
import Shorthand.Proofs.Yaml.Scalar
import Shorthand.Proofs.Yaml.Lexer
import Shorthand.Proofs.Yaml.Entry
import Shorthand.Proofs.Yaml.Block
import Shorthand.Proofs.Settings.Value
import Shorthand.Proofs.Settings.Written
import Shorthand.Proofs.Settings.Recovered
import Shorthand.Proofs.Clock.Shift
import Shorthand.Proofs.Command.Defaults
import Shorthand.Proofs.Command.NowAction
import Shorthand.Proofs.Number.Order
import Shorthand.Proofs.Completion.HeldRange
import Shorthand.Proofs.Completion.Listed
import Shorthand.Proofs.Completion.OuterBlanks
import Shorthand.Proofs.Report.Colour
import Shorthand.Proofs.Command.Preview
import Shorthand.Proofs.Clock.Text
import Shorthand.Proofs.Clock.Run
import Shorthand.Proofs.Text.Pattern
import Shorthand.Proofs.Slot.Pattern
import Shorthand.Proofs.Slot.Order
