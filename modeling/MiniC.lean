import MiniC.Pos
import MiniC.Text.Align
import MiniC.Text.Blank
import MiniC.Text.Decimal
import MiniC.Token
import MiniC.Token.Scan
import MiniC.Syntax
import MiniC.Syntax.Fault
import MiniC.Syntax.Outline
import MiniC.Syntax.Parser.State
import MiniC.Syntax.Parser
import MiniC.Scope
import MiniC.Typing.Diagnostic
import MiniC.Typing.Expression
import MiniC.Typing.Analysis
import MiniC.Code.Instruction
import MiniC.Code.Listing
import MiniC.Code.Fault
import MiniC.Code.Buffer
import MiniC.Machine.Memory
import MiniC.Machine
import MiniC.Code.Routines
import MiniC.Code.Expression
import MiniC.Code.Statement
import MiniC.Code.Program
import MiniC.Machine.Tape
import MiniC.Text.Split
import MiniC.Command.Files
import MiniC.Command.Console
import MiniC.Command.Options
import MiniC.Command.Session
import MiniC.Main
import MiniC.Proofs.Stepping
import MiniC.Proofs.Scopes
import MiniC.Proofs.Bindings
import MiniC.Proofs.Coding
import MiniC.Proofs.Patching
import MiniC.Proofs.Typing.Checking
import MiniC.Proofs.Emission
import MiniC.Proofs.Sizes
import MiniC.Proofs.Scanning.Bytes
import MiniC.Proofs.Scanning.Lexemes
import MiniC.Proofs.Scanning.Tiling
import MiniC.Proofs.Typing.Rules
import MiniC.Proofs.Typing.Uses
import MiniC.Proofs.Typing.Phrases
import MiniC.Proofs.Typing.Programs
import MiniC.Proofs.Typing.Entries
import MiniC.Proofs.Typing.Listing
import MiniC.Proofs.Grammar.Rules
import MiniC.Proofs.Grammar.Sound
import MiniC.Proofs.Grammar.Complete
import MiniC.Proofs.Grammar.Placement
import MiniC.Proofs.Linking
import MiniC.Proofs.Watch
import MiniC.Proofs.Steps
import MiniC.Proofs.Limits
import MiniC.Proofs.Consoles
import MiniC.Proofs.Careful
import MiniC.Proofs.Failures
import MiniC.Proofs.Ledger
import MiniC.Proofs.Operands
import MiniC.Proofs.Storage
import MiniC.Proofs.Functions
import MiniC.Proofs.CallSites
import MiniC.Proofs.Parts
import MiniC.Proofs.Passes
import MiniC.Proofs.Safety.Invariant
import MiniC.Proofs.Safety.Instructions
import MiniC.Proofs.Safety.Variables
import MiniC.Proofs.Safety.Calls
import MiniC.Proofs.Safety.Expressions
import MiniC.Proofs.Safety.Statements
import MiniC.Proofs.Safety.Functions
import MiniC.Proofs.Safety.Programs
import MiniC.Proofs.Safety.Overflow
import MiniC.Proofs.Safety.Faults
import MiniC.Proofs.Safety.Arguments
import MiniC.Proofs.Safety.Passages
import MiniC.Proofs.Safety.Comparisons
import MiniC.Proofs.Safety.Bounds
import MiniC.Proofs.Meaning.Evaluation
import MiniC.Proofs.Meaning.Runs
import MiniC.Proofs.Meaning.Homes
import MiniC.Proofs.Meaning.Instructions
import MiniC.Proofs.Meaning.Variables
import MiniC.Proofs.Meaning.Calls
import MiniC.Proofs.Meaning.Declarations
import MiniC.Proofs.Meaning.Expressions
import MiniC.Proofs.Meaning.Statements
import MiniC.Proofs.Meaning.Functions
import MiniC.Proofs.Meaning.Programs
import MiniC.Proofs.Files
import MiniC.Proofs.Sessions
import MiniC.Proofs.Renaming.Analysis
import MiniC.Proofs.Renaming.Code
import MiniC.Proofs.Grammar.Progress
import MiniC.Proofs.Grammar.Termination
import MiniC.Proofs.Grammar.Trees
import MiniC.Proofs.Layout
import MiniC.Proofs.Outcomes
import MiniC.Proofs.Resolution
import MiniC.Proofs.Grammar.Reports
import MiniC.Proofs.Typing.Repetition
import MiniC.Proofs.Overwriting
import MiniC.Proofs.Arithmetic.Placing
import MiniC.Proofs.Arithmetic.Computations
import MiniC.Proofs.Arithmetic.Checks
import MiniC.Proofs.Arithmetic.Jumps
import MiniC.Proofs.Arithmetic.Programs
import MiniC.Proofs.Buffers
import MiniC.Proofs.Fields
import MiniC.Proofs.Listings
import MiniC.Proofs.Piping
import MiniC.Proofs.Outlines.Lines
import MiniC.Proofs.Outlines.Programs
import MiniC.Proofs.Targets
import MiniC.Proofs.Frames
import MiniC.Proofs.Spills
