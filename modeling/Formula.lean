import Formula.Binding
import Formula.Builtin
import Formula.Bytecode.Codegen
import Formula.Bytecode.Instr
import Formula.Bytecode.Listing
import Formula.Bytecode.Machine
import Formula.Bytecode.Opcode
import Formula.Bytecode.Stack
import Formula.CInterface
import Formula.CInterface.Process
import Formula.CommandLine.Arguments
import Formula.CommandLine.Elapsed
import Formula.CommandLine.Log
import Formula.CommandLine.Run
import Formula.CompileError
import Formula.Config
import Formula.Context
import Formula.Context.Linking
import Formula.Definitions
import Formula.Definitions.Moment
import Formula.Definitions.Number
import Formula.Definitions.Quoted
import Formula.Definitions.Reader
import Formula.Error
import Formula.Evaluation
import Formula.Expr
import Formula.Expr.Outline
import Formula.Expr.Parser
import Formula.Main
import Formula.Native.Codegen
import Formula.Native.Encoding
import Formula.Native.Inst
import Formula.Native.Machine
import Formula.Native.Pages
import Formula.Native.Peephole
import Formula.Number.Decimal
import Formula.Number.Double
import Formula.Number.Layout
import Formula.Number.Reading
import Formula.Number.Shortest
import Formula.Object
import Formula.Program
import Formula.Proofs.Backends
import Formula.Proofs.Bytecode.Boundaries
import Formula.Proofs.Bytecode.ByteList
import Formula.Proofs.Bytecode.Encoding
import Formula.Proofs.Bytecode.Execution
import Formula.Proofs.Bytecode.Listing
import Formula.Proofs.Bytecode.Lowering
import Formula.Proofs.Bytecode.Relinking
import Formula.Proofs.Bytecode.Stack
import Formula.Proofs.CInterface
import Formula.Proofs.CallerStack
import Formula.Proofs.CommandLine.Closed
import Formula.Proofs.CommandLine.Overrides
import Formula.Proofs.CommandLine.Preparation
import Formula.Proofs.Computation
import Formula.Proofs.Context.Alike
import Formula.Proofs.Context.Binding
import Formula.Proofs.Context.Current
import Formula.Proofs.Context.FirstWins
import Formula.Proofs.Context.Link
import Formula.Proofs.Context.Linkable
import Formula.Proofs.Context.Lookup
import Formula.Proofs.Context.Overloads
import Formula.Proofs.Context.ProgramVerdict
import Formula.Proofs.Context.Registration
import Formula.Proofs.Context.Resolution
import Formula.Proofs.Context.RootCause
import Formula.Proofs.Context.Stability
import Formula.Proofs.Context.Unresolved
import Formula.Proofs.Context.Verdict
import Formula.Proofs.Context.Visit
import Formula.Proofs.Context.Walk
import Formula.Proofs.Context.World
import Formula.Proofs.Definitions
import Formula.Proofs.Dependence
import Formula.Proofs.Double
import Formula.Proofs.ErrorPositions
import Formula.Proofs.Excerpts
import Formula.Proofs.Grammar.Completeness
import Formula.Proofs.Grammar.Failures
import Formula.Proofs.Grammar.Impossible
import Formula.Proofs.Grammar.Positions
import Formula.Proofs.Grammar.Rules
import Formula.Proofs.Grammar.Soundness
import Formula.Proofs.Grammar.Texts
import Formula.Proofs.Height
import Formula.Proofs.Interpreter
import Formula.Proofs.LeftToRight
import Formula.Proofs.Lexing
import Formula.Proofs.Lexing.OnDemand
import Formula.Proofs.MixedBackends
import Formula.Proofs.Native.Counter
import Formula.Proofs.Native.Decoding
import Formula.Proofs.Native.Execution
import Formula.Proofs.Native.Frame
import Formula.Proofs.Native.Liveness
import Formula.Proofs.Native.Lowering
import Formula.Proofs.Native.NormalForm
import Formula.Proofs.Native.Pages
import Formula.Proofs.Native.Patching
import Formula.Proofs.Native.Peephole
import Formula.Proofs.Native.Program
import Formula.Proofs.Native.Value
import Formula.Proofs.Native.WriteXorExecute
import Formula.Proofs.Number.Plain
import Formula.Proofs.Number.Shortest
import Formula.Proofs.Numbering
import Formula.Proofs.Outline
import Formula.Proofs.Outline.Names
import Formula.Proofs.ParsedNames
import Formula.Proofs.Resolved
import Formula.Proofs.SharedSymbols
import Formula.Proofs.Signature
import Formula.Proofs.Signature.Reading
import Formula.Proofs.Spans
import Formula.Proofs.Splitting
import Formula.Proofs.SymbolTable
import Formula.Proofs.SymbolTable.Calls
import Formula.Proofs.Text.Lines
import Formula.Proofs.Text.Utf8
import Formula.Proofs.Tokens
import Formula.Signature
import Formula.Source
import Formula.Source.Span
import Formula.Store
import Formula.Symbol
import Formula.Symbol.Table
import Formula.Text.Bytes
import Formula.Text.Hex
import Formula.Text.Json
import Formula.Text.LittleEndian
import Formula.Text.Terminal
import Formula.Token
import Formula.Token.Lexer
