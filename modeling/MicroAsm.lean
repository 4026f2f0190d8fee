import MicroAsm.CommandLine.Run
import MicroAsm.Files.Tree
import MicroAsm.Main
import MicroAsm.Proofs.Assembly.Agreement
import MicroAsm.Proofs.Assembly.Appending
import MicroAsm.Proofs.Assembly.Definition
import MicroAsm.Proofs.Assembly.Padding
import MicroAsm.Proofs.Assembly.Processors
import MicroAsm.Proofs.CommandLine.Status
import MicroAsm.Proofs.Config
import MicroAsm.Proofs.Disassembly
import MicroAsm.Proofs.Expr
import MicroAsm.Proofs.Instruction.RoundTrip
import MicroAsm.Proofs.Likeness.Comments
import MicroAsm.Proofs.Likeness.LetterCase
import MicroAsm.Proofs.Likeness.LineBreaks
import MicroAsm.Proofs.Listing.Alignment
import MicroAsm.Proofs.Listing.Assignments
import MicroAsm.Proofs.Listing.Breaks
import MicroAsm.Proofs.Listing.Bytes
import MicroAsm.Proofs.Listing.Printing
import MicroAsm.Proofs.Listing.Rows
import MicroAsm.Proofs.Object.Format
import MicroAsm.Proofs.Object.Histories
import MicroAsm.Proofs.Object.Truncation
import MicroAsm.Proofs.Parser.Accounting
import MicroAsm.Proofs.Parser.Rejection
import MicroAsm.Proofs.Statement.Grammar
import MicroAsm.Proofs.Symbol.Histories
import MicroAsm.Proofs.Token.Literals
import MicroAsm.Proofs.Token.Lossless
import MicroAsm.Proofs.Token.Positional
import MicroAsm.Proofs.Tree.Histories
import MicroAsm.Proofs.Tree.Texts
