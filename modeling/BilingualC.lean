import BilingualC.Arena
import BilingualC.Arena.Forest
import BilingualC.Arena.View
import BilingualC.Binary64
import BilingualC.Builtin
import BilingualC.Checker
import BilingualC.Checker.Declaration
import BilingualC.Checker.Expression
import BilingualC.Checker.Library
import BilingualC.Checker.Statement
import BilingualC.Checksum
import BilingualC.Command
import BilingualC.CommandLine
import BilingualC.CommandLine.Dialogue
import BilingualC.CommandLine.Help
import BilingualC.Compilation
import BilingualC.Diagnostic
import BilingualC.Disk
import BilingualC.Duration
import BilingualC.Fault
import BilingualC.Glob
import BilingualC.Golden
import BilingualC.Golden.Command
import BilingualC.Golden.Flags
import BilingualC.Golden.Runner
import BilingualC.Grammar
import BilingualC.Grammar.Declaration
import BilingualC.Grammar.Expression
import BilingualC.Grammar.Statement
import BilingualC.Image
import BilingualC.Image.Cbor
import BilingualC.Image.Format
import BilingualC.Image.Listing
import BilingualC.Instruction
import BilingualC.Instruction.Selection
import BilingualC.Journal
import BilingualC.Json
import BilingualC.Kind
import BilingualC.Lexeme
import BilingualC.Lowering
import BilingualC.Lowering.Expression
import BilingualC.Lowering.Statement
import BilingualC.Main
import BilingualC.Node
import BilingualC.Operator
import BilingualC.Options
import BilingualC.Options.Flags
import BilingualC.Path
import BilingualC.Proofs.Arena.Adoption
import BilingualC.Proofs.Arena.Block
import BilingualC.Proofs.Arena.Reading
import BilingualC.Proofs.Arena.Refinement
import BilingualC.Proofs.Forest.Refusals
import BilingualC.Proofs.Forest.Removals
import BilingualC.Proofs.Dispatch
import BilingualC.Proofs.Execution
import BilingualC.Proofs.Guarded
import BilingualC.Proofs.Lowering.Closed
import BilingualC.Proofs.Lowering.Code
import BilingualC.Proofs.Lowering.Layout
import BilingualC.Proofs.Lowering.Slots
import BilingualC.Proofs.Lowering.Targets
import BilingualC.Proofs.Session.Frames
import BilingualC.Proofs.Session.Interning
import BilingualC.Proofs.Session.Layout
import BilingualC.Proofs.Session.Scopes
import BilingualC.Proofs.Simulation
import BilingualC.Proofs.Tree.Form
import BilingualC.Proofs.TypeTable
import BilingualC.Session
import BilingualC.Sorting
import BilingualC.Spelling
import BilingualC.Text.Case
import BilingualC.Text.Fields
import BilingualC.Text.Letter
import BilingualC.Text.Numeral
import BilingualC.Text.Printable
import BilingualC.Text.Quoted
import BilingualC.Text.Template
import BilingualC.Text.Utf8
import BilingualC.Token
import BilingualC.Toml
import BilingualC.Toml.Build
import BilingualC.Toml.Reader
import BilingualC.TypeTable
import BilingualC.Word
import BilingualC.Workspace
import BilingualC.Proofs.Arena.Waiting
import BilingualC.Proofs.Checker.Building
import BilingualC.Proofs.Checker.Conversion
import BilingualC.Proofs.Checker.Declaration
import BilingualC.Proofs.Checker.Library
import BilingualC.Proofs.Checker.Program
import BilingualC.Proofs.Compilation
import BilingualC.Proofs.Memory
import BilingualC.Proofs.Image.Cbor
import BilingualC.Proofs.Image.Text
import BilingualC.Proofs.Total.Construction
import BilingualC.Proofs.Total.Folding
import BilingualC.Proofs.Settings
import BilingualC.Proofs.FlagGroups
import BilingualC.Proofs.Lexeme.Partition
import BilingualC.Proofs.Lexeme.Quoted
import BilingualC.Proofs.Lexeme.Segments
import BilingualC.Proofs.Lexeme.Spelled
import BilingualC.Proofs.Golden.Pool
import BilingualC.Proofs.Golden.Recording
import BilingualC.Proofs.Reading.Clauses
import BilingualC.Proofs.Reading.Declarations
import BilingualC.Proofs.Reading.Program
import BilingualC.Proofs.Reading.Sources
import BilingualC.Proofs.References
import BilingualC.Proofs.Coupling.Declarations
import BilingualC.Proofs.Coupling.Statements
import BilingualC.Proofs.Arena.Traversal
import BilingualC.Proofs.Image.Listing
import BilingualC.Proofs.Image.Lossless
import BilingualC.Proofs.Lowering.Initializer
import BilingualC.Proofs.Total.Initializer
import BilingualC.Proofs.Reading.Termination
import BilingualC.Proofs.CommandLine
import BilingualC.Proofs.Journal
import BilingualC.Proofs.Printing
import BilingualC.Proofs.Reading.Formula
