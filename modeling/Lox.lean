import Lox.Diagnostic
import Lox.Eval
import Lox.Eval.Operators
import Lox.Eval.Outcome
import Lox.Main
import Lox.NodeTypes
import Lox.Number.Basic
import Lox.Number.Layout
import Lox.Number.Rounding
import Lox.Number.Shortest
import Lox.Proofs.Grammar.Expression
import Lox.Proofs.Parser.Reads
import Lox.Proofs.Parser.Recovery
import Lox.Resolution.Bind
import Lox.Resolution.Check
import Lox.Resolution.Context
import Lox.Resolution.StaticError
import Lox.RuntimeError
import Lox.Session
import Lox.Session.Event
import Lox.Session.Status
import Lox.Shell.Command
import Lox.Shell.Flags
import Lox.Shell.Log
import Lox.Shell.Painter
import Lox.Shell.Path
import Lox.Shell.Prompt
import Lox.Shell.Settings
import Lox.Shell.SettingsFile
import Lox.Shell.Timestamp
import Lox.Store
import Lox.Store.Scopes
import Lox.Text.Blank
import Lox.Text.Bytes
import Lox.Text.LowerCase
import Lox.Text.Printable
import Lox.Text.Quoted
import Lox.Text.Utf8
import Lox.Token
import Lox.Token.Scan
import Lox.Tree
import Lox.Tree.Dump
import Lox.Tree.Grammar.Expression
import Lox.Tree.Grammar.Statement
import Lox.Tree.Parser
import Lox.Tree.Sites
import Lox.Tree.SyntaxError
import Lox.Tree.Uses
import Lox.Value
import Lox.Yaml.Cursor
import Lox.Yaml.Meaning
import Lox.Yaml.Node
import Lox.Yaml.Scalar
import Lox.Yaml.Scan
import Lox.Yaml.Token
import Lox.Proofs.Parser.ExpressionSound
import Lox.Proofs.Parser.ExpressionComplete
import Lox.Proofs.Grammar.Statement
import Lox.Proofs.Parser.StatementSound
import Lox.Proofs.Parser.Accepts
import Lox.Proofs.Parser.Boundary
import Lox.Proofs.Eval.Fuel
import Lox.Proofs.Eval.Contract
import Lox.Proofs.Resolution.Walk
import Lox.Proofs.Resolution.WellFormed
import Lox.Proofs.Resolution.Spelling
import Lox.Proofs.Soundness.State
import Lox.Proofs.Token.Pieces
import Lox.Proofs.Soundness.Operators
import Lox.Proofs.Soundness.Declarations
import Lox.Proofs.Soundness.Tasks
import Lox.Proofs.Soundness.Statements
import Lox.Proofs.Session.Scoping
import Lox.Proofs.Parser.Invariant
import Lox.Proofs.Parser.Moves
import Lox.Proofs.Parser.Nesting
import Lox.Proofs.Parser.Simple
import Lox.Proofs.Session.Safety
import Lox.Proofs.Lines.Grammar
import Lox.Proofs.Lines.Eval
import Lox.Proofs.Token.Newline
import Lox.Proofs.Lines.Session
import Lox.Proofs.Session.Joined
import Lox.Proofs.Eval.History
import Lox.Proofs.Eval.Leaves
import Lox.Proofs.Heap.Extends
import Lox.Proofs.Heap.Receivers
import Lox.Proofs.Heap.Tasks
import Lox.Proofs.Session.Receivers
import Lox.Proofs.Resolution.Exact
import Lox.Proofs.Eval.Frame
import Lox.Proofs.Eval.Termination
import Lox.Proofs.Session.Termination
import Lox.Proofs.Renaming.Respelled
import Lox.Proofs.Renaming.Static
import Lox.Proofs.Renaming.Fresh
import Lox.Proofs.Renaming.Scope
import Lox.Proofs.Renaming.Store
import Lox.Proofs.Renaming.Operators
import Lox.Proofs.Renaming.Eval
import Lox.Proofs.Renaming.Grammar
import Lox.Proofs.Renaming.Source
import Lox.Proofs.Renaming.Session
import Lox.Proofs.Text.Character
import Lox.Proofs.Eval.ActiveCalls
import Lox.Proofs.Session.Reports
import Lox.Proofs.Token.LongestMatch
import Lox.Proofs.Resolution.Walker
import Lox.Proofs.Resolution.SideTable
import Lox.Proofs.Parser.Linear
import Lox.Proofs.Resolution.Places
import Lox.Proofs.Session.Loops
import Lox.Proofs.Resolution.Returns
import Lox.Proofs.Eval.Activation
import Lox.Proofs.Session.Returns
import Lox.Proofs.Heap.Reachable
import Lox.Proofs.Heap.Construction
import Lox.Proofs.Session.Construction
import Lox.Proofs.Resolution.Initializers
import Lox.Proofs.Soundness.Names
import Lox.Proofs.Session.Assignments
import Lox.Proofs.Session.Declarations
import Lox.Proofs.Token.Layout
import Lox.Proofs.Token.Lines
import Lox.Proofs.Grammar.Braces
import Lox.Proofs.Shell.Prompt
import Lox.Proofs.Text.Quoted
import Lox.Proofs.Number.Positional
import Lox.Proofs.Number.Halfway
import Lox.Proofs.Number.Written
import Lox.Proofs.Dump.Form
import Lox.Proofs.Dump.Tree
import Lox.Proofs.Dump.Lexeme
import Lox.Proofs.Dump.Expression
import Lox.Proofs.Dump.Statement
import Lox.Proofs.Dump.Unambiguous
import Lox.Proofs.Store.Chain
import Lox.Proofs.Store.Sharing
import Lox.Proofs.Value.Equality
import Lox.Proofs.Heap.Changes
import Lox.Proofs.Heap.Skeleton
import Lox.Proofs.Session.Skeleton
import Lox.Proofs.Soundness.Reach
