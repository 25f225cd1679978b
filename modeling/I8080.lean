import I8080.Text.Format
import I8080.Text.Numeral
import I8080.Text.Escape
import I8080.Text.Painter
import I8080.Word
import I8080.Flags
import I8080.Register
import I8080.Condition
import I8080.AluOp
import I8080.Instr
import I8080.Instr.Encoding
import I8080.Instr.Text
import I8080.Operand
import I8080.AsmError
import I8080.Mnemonic
import I8080.Mnemonic.Table
import I8080.Source.Literal
import I8080.Source.Span
import I8080.Source.Token
import I8080.Source.Line
import I8080.Assembly.LabelTable
import I8080.Window
import I8080.Diagnostic
import I8080.Assembly.Statement
import I8080.Assembly.Pass
import I8080.Assembly
import I8080.Display.Printer
import I8080.Display.Listing
import I8080.Machine
import I8080.Machine.Stack
import I8080.Machine.Arithmetic
import I8080.Machine.Execute
import I8080.Machine.Step
import I8080.Machine.Run
import I8080.Display.Flags
import I8080.Display.Registers
import I8080.Display.Stack
import I8080.Display.Trace
import I8080.Settings
import I8080.Command.Path
import I8080.Command.Files
import I8080.Command.Folder
import I8080.Command.Script
import I8080.Command.Arguments
import I8080.Command.Request
import I8080.Command.Screen
import I8080.Command
import I8080.Main
import I8080.Proofs.Except
import I8080.Proofs.Image
import I8080.Proofs.LabelTable
import I8080.Proofs.Mnemonic
import I8080.Proofs.Statement
import I8080.Proofs.Outcome
import I8080.Proofs.Pass
import I8080.Proofs.Assemble
import I8080.Proofs.Resolution
import I8080.Proofs.Encoding
import I8080.Proofs.Literal
import I8080.Proofs.Token
import I8080.Proofs.Lexeme
import I8080.Proofs.Line
import I8080.Proofs.Writing
import I8080.Proofs.Reading
import I8080.Proofs.Layout
import I8080.Proofs.Disassembly
import I8080.Proofs.Demand
import I8080.Proofs.WordMachine
import I8080.Proofs.WordStep
import I8080.Proofs.WordExecute
import I8080.Proofs.StepFault
import I8080.Proofs.Operation
import I8080.Proofs.Footprint
import I8080.Proofs.Nesting
import I8080.Proofs.Conclusion
import I8080.Proofs.Escape
import I8080.Proofs.RunCommand
import I8080.Proofs.Diagnostic
import I8080.Proofs.BlankLine
import I8080.Proofs.Isolation
import I8080.Proofs.Listing
import I8080.Proofs.Account
import I8080.Proofs.Boundary
import I8080.Proofs.LabelAddress
import I8080.Proofs.Confinement
import I8080.Proofs.Cursor
import I8080.Proofs.Checked
import I8080.Proofs.CheckedLine
import I8080.Proofs.InRange
import I8080.Proofs.Locality
import I8080.Proofs.Completion
import I8080.Proofs.Append
import I8080.Proofs.View
import I8080.Proofs.LexemeView
import I8080.Proofs.Spacing
import I8080.Proofs.Decimal
import I8080.Proofs.StatementText
import I8080.Proofs.Direct
import I8080.Proofs.Carry
import I8080.Proofs.PackedDecimal
import I8080.Proofs.Path
import I8080.Proofs.Agreement
import I8080.Proofs.Rename
import I8080.Proofs.Respelling
import I8080.Proofs.Relabelling
import I8080.Proofs.Control
import I8080.Proofs.ByteFormat
import I8080.Proofs.Fit
import I8080.Proofs.Row
import I8080.Proofs.Acceptance
import I8080.Proofs.Lexing
import I8080.Proofs.LineByLine
import I8080.Proofs.LiteralForm
import I8080.Proofs.Place
import I8080.Proofs.Blame
import I8080.Proofs.StackList
import I8080.Proofs.Undo
import I8080.Proofs.Stripping
import I8080.Proofs.StatementView
import I8080.Proofs.LetterCase
import I8080.Proofs.Recasing
import I8080.Proofs.Exchange
import I8080.Proofs.LabelCalls
import I8080.Proofs.UnsignedText
import I8080.Proofs.Snapshot
import I8080.Proofs.Shown
import I8080.Proofs.Printable
import I8080.Proofs.RegisterTable
import I8080.Proofs.Readout
