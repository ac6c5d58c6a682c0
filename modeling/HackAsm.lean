import HackAsm.Text.Numeral
import HackAsm.Text.Ansi
import HackAsm.Text.Escapes
import HackAsm.Text.WhiteSpace
import HackAsm.Text.Lines
import HackAsm.Text.Similarity
import HackAsm.Machine.Comp
import HackAsm.Machine.Dest
import HackAsm.Machine.Jump
import HackAsm.Machine.Symbol
import HackAsm.Machine.Instruction
import HackAsm.Error
import HackAsm.Source.Line
import HackAsm.Source.Operand
import HackAsm.Source.Code
import HackAsm.Symbols.Table
import HackAsm.Symbols.Labels
import HackAsm.Symbols.Context
import HackAsm.Symbols.Yaml
import HackAsm.Assembly
import HackAsm.Listing
import HackAsm.Cli.Arguments
import HackAsm.Cli.Path
import HackAsm.Cli.Host
import HackAsm.Cli.Disk
import HackAsm.Cli.Session
import HackAsm.Main
import HackAsm.Proofs.FirstPass
import HackAsm.Proofs.SecondPass
import HackAsm.Proofs.Iterator
import HackAsm.Proofs.Variables
import HackAsm.Proofs.RoundTrip
import HackAsm.Proofs.Allocation
import HackAsm.Proofs.Rerun
import HackAsm.Proofs.Layout
import HackAsm.Proofs.FirstPassVerdict
import HackAsm.Proofs.ComputeGrammar
import HackAsm.Proofs.CommandLine
import HackAsm.Proofs.WordLayout
import HackAsm.Proofs.Highlight
import HackAsm.Proofs.OperandValue
import HackAsm.Proofs.ListingRows
import HackAsm.Proofs.LineCode
