import StackAssembler.Assembly.Assemble
import StackAssembler.Assembly.Config
import StackAssembler.Assembly.Emission
import StackAssembler.Assembly.Image
import StackAssembler.Assembly.LabelTable
import StackAssembler.Assembly.Listing
import StackAssembler.Assembly.Reach
import StackAssembler.Assembly.Survey
import StackAssembler.Build
import StackAssembler.Cli.FileTree
import StackAssembler.Cli.Options
import StackAssembler.Cli.Path
import StackAssembler.Cli.Run
import StackAssembler.Journal
import StackAssembler.Json.Skip
import StackAssembler.Json.Text
import StackAssembler.Json.Token
import StackAssembler.Machine.Instruction
import StackAssembler.Machine.Opcode
import StackAssembler.Machine.Operation
import StackAssembler.Machine.Word
import StackAssembler.Macro.Expansion
import StackAssembler.Macro.Fault
import StackAssembler.Macro.Table
import StackAssembler.Macro.Template
import StackAssembler.Main
import StackAssembler.Proofs.Layout
import StackAssembler.Proofs.Scan
import StackAssembler.Source.Fault
import StackAssembler.Source.Line
import StackAssembler.SymbolMap.AddressMap
import StackAssembler.SymbolMap.Basic
import StackAssembler.SymbolMap.Printer
import StackAssembler.SymbolMap.Reader
import StackAssembler.Text.Blank
import StackAssembler.Text.Digit
import StackAssembler.Text.Lines
import StackAssembler.Text.Numeral
import StackAssembler.Text.Token
import StackAssembler.Proofs.LabelTable
import StackAssembler.Proofs.Passes
import StackAssembler.Proofs.Agreement
import StackAssembler.Proofs.Meaning
import StackAssembler.Proofs.Precedence
import StackAssembler.Proofs.Pruning
import StackAssembler.Proofs.Tokens
import StackAssembler.Proofs.Lines
import StackAssembler.Proofs.DeadLines
import StackAssembler.Proofs.Disassembly
import StackAssembler.Proofs.MacroCalls
import StackAssembler.Proofs.MacroSource
import StackAssembler.Proofs.MacroPrecedence
import StackAssembler.Proofs.LineMap
import StackAssembler.Proofs.MacroFree
import StackAssembler.Proofs.Correspondence
import StackAssembler.Proofs.Renaming
import StackAssembler.Proofs.NormalForm
import StackAssembler.Proofs.Concatenation
import StackAssembler.Proofs.Limits
import StackAssembler.Proofs.MacroSemantics
import StackAssembler.Proofs.FileTree
import StackAssembler.Proofs.Extension
import StackAssembler.Proofs.Arguments
import StackAssembler.Proofs.Options
import StackAssembler.Proofs.Effects
import StackAssembler.Proofs.JsonText
import StackAssembler.Proofs.SymbolText
import StackAssembler.Proofs.SymbolMap
import StackAssembler.Proofs.LabelHistory
import StackAssembler.Proofs.LaterText
import StackAssembler.Proofs.Listing
import StackAssembler.Proofs.Filling
import StackAssembler.Proofs.DefinitionOrder
import StackAssembler.Proofs.Literals
import StackAssembler.Proofs.Comments
import StackAssembler.Proofs.Rendering
import StackAssembler.Proofs.CommentSplit
