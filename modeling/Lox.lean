import Lox.Action
import Lox.Bindings
import Lox.Console
import Lox.Decimal
import Lox.Decimal.Float
import Lox.Diagnostic
import Lox.Diagnostic.Terminal
import Lox.Environment
import Lox.Evaluation
import Lox.Execution
import Lox.Fault
import Lox.Interned.Action
import Lox.Interned.Evaluation
import Lox.Interned.Session
import Lox.Interned.Syntax
import Lox.Main
import Lox.NameTable
import Lox.Problem
import Lox.Proofs.Composition
import Lox.Proofs.Contract
import Lox.Proofs.Grammar
import Lox.Proofs.Lexeme
import Lox.Proofs.Munch
import Lox.Proofs.Nodes
import Lox.Proofs.Lockstep
import Lox.Proofs.Reachability
import Lox.Proofs.ScopeGraph
import Lox.Proofs.ControlFlow
import Lox.Proofs.Operators
import Lox.Proofs.ParserCompleteness
import Lox.Proofs.ParserSoundness
import Lox.Proofs.Reading
import Lox.Proofs.Rendering
import Lox.Proofs.Restoration
import Lox.Proofs.SourceSpan
import Lox.Proofs.Tiling
import Lox.Session
import Lox.Syntax
import Lox.Syntax.Outline
import Lox.Syntax.ParseError
import Lox.Syntax.Parser
import Lox.Text.Blank
import Lox.Text.Lines
import Lox.Text.Position
import Lox.Text.Quoted
import Lox.Text.Span
import Lox.Token
import Lox.Token.Lexer
import Lox.Value
import Lox.Value.Operators
import Lox.Proofs.ParserTracing
import Lox.Proofs.History
import Lox.Proofs.Blame
import Lox.Proofs.ErrorLocation
import Lox.Proofs.Interning
import Lox.Proofs.Confinement
import Lox.Proofs.Arena
import Lox.Proofs.Numbering
import Lox.Proofs.Sources
import Lox.Proofs.ArenaSafety
import Lox.Proofs.NodeNumbers
import Lox.Proofs.Forest
import Lox.Proofs.Termination
import Lox.Proofs.TreeLikeness
import Lox.Proofs.Layout
import Lox.Proofs.Excerpt
import Lox.Proofs.Parts
import Lox.Proofs.NodeSpans
import Lox.Proofs.Reparsing
import Lox.Proofs.FaultSites
import Lox.Proofs.Lookahead
import Lox.Proofs.ParserTotality
import Lox.Proofs.Fuel
import Lox.Proofs.Conversation
import Lox.Proofs.Braces
import Lox.Proofs.Pairing
import Lox.Proofs.PairedSteps
import Lox.Proofs.PairedRuns
import Lox.Proofs.Transparency
import Lox.Proofs.LineAgreement
import Lox.Proofs.IntegerOperators
import Lox.Proofs.Texts
import Lox.Proofs.NearestBinding
import Lox.Proofs.FloatNumbers
import Lox.Proofs.Widening
import Lox.Proofs.Equality
import Lox.Proofs.TypeErrors
import Lox.Proofs.Foresight
import Lox.Proofs.FirstFault
import Lox.Proofs.PlaceOrder
import Lox.Proofs.InvalidTargets
import Lox.Proofs.ParameterLists
import Lox.Proofs.NumberedNames
import Lox.Proofs.Dumps
import Lox.Proofs.Colours
import Lox.Proofs.Identities
import Lox.Proofs.PureExpressions
import Lox.Proofs.CallDepth
import Lox.Proofs.StackOverflow
import Lox.Proofs.LiteralValues
import Lox.Proofs.Gathering
import Lox.Proofs.Interner
import Lox.Proofs.InternedTrees
import Lox.Proofs.InternedStates
import Lox.Proofs.InternedSteps
import Lox.Proofs.InternedRuns
import Lox.Proofs.InternedSessions
