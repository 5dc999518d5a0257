import Jminus.Checked
import Jminus.Checked.Analysis
import Jminus.Code
import Jminus.Code.Expr
import Jminus.Code.Stmt
import Jminus.CommandLine
import Jminus.CommandLine.Batch
import Jminus.CommandLine.Flags
import Jminus.CommandLine.Folder
import Jminus.CommandLine.Session
import Jminus.Compilation
import Jminus.Decimal.Binary
import Jminus.Decimal.Layout
import Jminus.Decimal.Reader
import Jminus.Decimal.Shortest
import Jminus.Diagnostic
import Jminus.Fault
import Jminus.Flow
import Jminus.Listing
import Jminus.Listing.Dispatch
import Jminus.Listing.Label
import Jminus.Log
import Jminus.Machine
import Jminus.Machine.Arithmetic
import Jminus.Main
import Jminus.Method
import Jminus.Method.Signature
import Jminus.NodeDecl
import Jminus.Opcode
import Jminus.Options
import Jminus.Scope
import Jminus.Text.Blank
import Jminus.Text.Directive
import Jminus.Text.Lines
import Jminus.Text.Lower
import Jminus.Text.Numeral
import Jminus.Text.Printable
import Jminus.Text.Quoted
import Jminus.Text.Utf8
import Jminus.Token
import Jminus.Token.Lexer
import Jminus.Tree
import Jminus.Tree.Parser
import Jminus.Tree.Printer
import Jminus.Ty
import Jminus.Value
import Jminus.Value.Format
import Jminus.Proofs.Compilation
import Jminus.Proofs.Conditions
import Jminus.Proofs.Grammar
import Jminus.Proofs.Grammar.Regular
import Jminus.Proofs.Nesting
import Jminus.Proofs.Descriptor.Cursor
import Jminus.Proofs.Numerals
import Jminus.Proofs.Parts
import Jminus.Proofs.Passage
import Jminus.Proofs.Printing
import Jminus.Proofs.Scanning
import Jminus.Proofs.Simulation.Program
import Jminus.Proofs.Spelling
import Jminus.Proofs.Strings
import Jminus.Proofs.Typing.Stmt
import Jminus.Proofs.Grammar.Phrases
import Jminus.Proofs.Grammar.Sound
import Jminus.Proofs.Grammar.Complete
import Jminus.Proofs.Grammar.Local
import Jminus.Proofs.Grammar.Programs
import Jminus.Proofs.Jumps
import Jminus.Proofs.Lines
import Jminus.Proofs.Addresses
import Jminus.Proofs.Definite
import Jminus.Proofs.Definite.Code
import Jminus.Proofs.Definite.Run
import Jminus.Proofs.Height
import Jminus.Proofs.Height.Expr
import Jminus.Proofs.Height.Stmt
import Jminus.Proofs.Height.Run
import Jminus.Proofs.Limit
import Jminus.Proofs.Resolution
import Jminus.Proofs.Routing
import Jminus.Proofs.Rescanning
import Jminus.Proofs.Spacing
import Jminus.Proofs.Outline
import Jminus.Proofs.Outline.Tree
import Jminus.Proofs.Outline.Reader
import Jminus.Proofs.Outline.Readable
import Jminus.Proofs.Outline.Program
import Jminus.Proofs.Alike
import Jminus.Proofs.Alike.Stmt
import Jminus.Proofs.Unrolling
import Jminus.Proofs.Unrolling.Analysis
import Jminus.Proofs.Unrolling.Text
import Jminus.Proofs.Acceptance
import Jminus.Proofs.Unrolling.Program
import Jminus.Proofs.Typing.Silent
import Jminus.Proofs.Typing.Slips
import Jminus.Proofs.Grammar.Braces
import Jminus.Proofs.Entries
import Jminus.Proofs.Leaving
import Jminus.Proofs.Dispatch.Cost
import Jminus.Proofs.Environment
import Jminus.Proofs.Arithmetic
