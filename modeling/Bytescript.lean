import Bytescript.Ast.Basic
import Bytescript.Ast.Outline
import Bytescript.Ast.Parse
import Bytescript.Ast.Printer
import Bytescript.Builtin
import Bytescript.Bytecode.Buffer
import Bytescript.Bytecode.Builder
import Bytescript.Bytecode.File
import Bytescript.Bytecode.Fragment
import Bytescript.Bytecode.Instruction
import Bytescript.Bytecode.Listing
import Bytescript.Bytecode.Opcode
import Bytescript.Bytecode.Program
import Bytescript.CommandLine.Command
import Bytescript.CommandLine.Directory
import Bytescript.CommandLine.Highlight
import Bytescript.CommandLine.Options
import Bytescript.CommandLine.Path
import Bytescript.Compile
import Bytescript.Decimal.Binary64
import Bytescript.Decimal.Shortest
import Bytescript.Diagnostic.Basic
import Bytescript.Diagnostic.Report
import Bytescript.Diagnostic.Stages
import Bytescript.Machine.Basic
import Bytescript.Machine.CallStack
import Bytescript.Machine.Fault
import Bytescript.Machine.Host
import Bytescript.Machine.Native
import Bytescript.Machine.Traced
import Bytescript.Main
import Bytescript.Proofs.Activations
import Bytescript.Proofs.Alike
import Bytescript.Proofs.Allocation
import Bytescript.Proofs.Arities
import Bytescript.Proofs.Attribution
import Bytescript.Proofs.BackPatching
import Bytescript.Proofs.Balance
import Bytescript.Proofs.Bindings
import Bytescript.Proofs.Callees
import Bytescript.Proofs.Calls
import Bytescript.Proofs.Carets
import Bytescript.Proofs.Closures
import Bytescript.Proofs.CompilerSteps
import Bytescript.Proofs.Compiling
import Bytescript.Proofs.Confinement
import Bytescript.Proofs.Consumption
import Bytescript.Proofs.Correctness
import Bytescript.Proofs.DamagedFiles
import Bytescript.Proofs.Depth
import Bytescript.Proofs.Division
import Bytescript.Proofs.Effects
import Bytescript.Proofs.Emission
import Bytescript.Proofs.Equality
import Bytescript.Proofs.FaultPlaces
import Bytescript.Proofs.FileFormat
import Bytescript.Proofs.FiniteMaps
import Bytescript.Proofs.Frames
import Bytescript.Proofs.Functions
import Bytescript.Proofs.GlobalSlots
import Bytescript.Proofs.Grammar
import Bytescript.Proofs.Incremental
import Bytescript.Proofs.Instructions
import Bytescript.Proofs.Invariants
import Bytescript.Proofs.Isolation
import Bytescript.Proofs.Layout
import Bytescript.Proofs.Leftovers
import Bytescript.Proofs.Limits
import Bytescript.Proofs.Loading
import Bytescript.Proofs.Lockstep
import Bytescript.Proofs.Meaning
import Bytescript.Proofs.Names
import Bytescript.Proofs.Nesting
import Bytescript.Proofs.Nodes
import Bytescript.Proofs.Occurrences
import Bytescript.Proofs.Operands
import Bytescript.Proofs.Origins
import Bytescript.Proofs.Parts
import Bytescript.Proofs.Passages
import Bytescript.Proofs.PrecedenceTrees
import Bytescript.Proofs.Programs
import Bytescript.Proofs.Provenance
import Bytescript.Proofs.Readers
import Bytescript.Proofs.Reading
import Bytescript.Proofs.Realization
import Bytescript.Proofs.Renderable
import Bytescript.Proofs.Reports
import Bytescript.Proofs.Resolution
import Bytescript.Proofs.RoundTrip
import Bytescript.Proofs.Scanning
import Bytescript.Proofs.Sessions
import Bytescript.Proofs.Simulation
import Bytescript.Proofs.Spelling
import Bytescript.Proofs.StackHeights
import Bytescript.Proofs.Statements
import Bytescript.Proofs.Streams
import Bytescript.Proofs.Surface
import Bytescript.Proofs.Tiling
import Bytescript.Proofs.Turn
import Bytescript.Proofs.WellFormed
import Bytescript.Proofs.WrittenTokens
import Bytescript.Scope
import Bytescript.Session
import Bytescript.Source.Located
import Bytescript.Source.Span
import Bytescript.Text.Alphabetic
import Bytescript.Text.Bounds
import Bytescript.Text.ExtendingMark
import Bytescript.Text.Numeric
import Bytescript.Text.Printable
import Bytescript.Text.Quoted
import Bytescript.Text.Style
import Bytescript.Token.Basic
import Bytescript.Token.Dump
import Bytescript.Token.Scan
import Bytescript.Value.Basic
import Bytescript.Value.Call
import Bytescript.Value.HashKey
import Bytescript.Value.Operation
