import Risc16.Asm.Emission
import Risc16.Asm.Line
import Risc16.Asm.Literal
import Risc16.Asm.Mnemonic
import Risc16.Asm.Operand
import Risc16.Asm.Program
import Risc16.Asm.Survey
import Risc16.Asm.Symbol
import Risc16.Command.Arguments
import Risc16.Command.Assemble
import Risc16.Command.Disassemble
import Risc16.Command.FileTree
import Risc16.Command.Outcome
import Risc16.Command.Path
import Risc16.Fault
import Risc16.Isa.Immediate
import Risc16.Isa.Instr
import Risc16.Isa.Opcode
import Risc16.Isa.Register
import Risc16.Main
import Risc16.Proofs.Arguments
import Risc16.Proofs.AssembleCommand
import Risc16.Proofs.Branch
import Risc16.Proofs.Diagnosis
import Risc16.Proofs.DisassembleCommand
import Risc16.Proofs.Disassembly
import Risc16.Proofs.Emission
import Risc16.Proofs.Expansion
import Risc16.Proofs.Fields
import Risc16.Proofs.FileTree
import Risc16.Proofs.FillChain
import Risc16.Proofs.Insertion
import Risc16.Proofs.Joining
import Risc16.Proofs.LabelName
import Risc16.Proofs.Layout
import Risc16.Proofs.LetterCase
import Risc16.Proofs.LineGrammar
import Risc16.Proofs.Listing
import Risc16.Proofs.LiteralGrammar
import Risc16.Proofs.Location
import Risc16.Proofs.NormalForm
import Risc16.Proofs.Numeral
import Risc16.Proofs.Object
import Risc16.Proofs.OperandUse
import Risc16.Proofs.RegisterGrammar
import Risc16.Proofs.Relocation
import Risc16.Proofs.Renaming
import Risc16.Proofs.Rendering
import Risc16.Proofs.Replacement
import Risc16.Proofs.Shorthand
import Risc16.Proofs.Source
import Risc16.Proofs.Substitution
import Risc16.Proofs.Survey
import Risc16.Proofs.SymbolHistory
import Risc16.Proofs.Token
import Risc16.Proofs.Unbroken
import Risc16.Proofs.Unlabelled
import Risc16.Proofs.Warning
import Risc16.Proofs.WordFile
import Risc16.Report.Listing
import Risc16.Report.Message
import Risc16.Report.SymbolList
import Risc16.Text.Blank
import Risc16.Text.Cut
import Risc16.Text.Lines
import Risc16.Text.Numeral
import Risc16.Text.Paint
import Risc16.Text.Terminal
import Risc16.WordFile
