import TypedLambda.Text.Escape
import TypedLambda.Text.Letter
import TypedLambda.Text.Line
import TypedLambda.Text.Quoted
import TypedLambda.Text.TabStop
import TypedLambda.Text.Written
import TypedLambda.Ty.Basic
import TypedLambda.Ty.Printer
import TypedLambda.Term.Basic
import TypedLambda.Term.Printer
import TypedLambda.Term.FreeVars
import TypedLambda.Term.Subst
import TypedLambda.Scope
import TypedLambda.Context
import TypedLambda.Typing.Error
import TypedLambda.Typing.Resolve
import TypedLambda.Typing.Basic
import TypedLambda.Reduction.Step
import TypedLambda.Reduction.Run
import TypedLambda.Token
import TypedLambda.Parser.Cursor
import TypedLambda.Parser.Basic
import TypedLambda.Grammar.Keyword
import TypedLambda.Grammar.Description
import TypedLambda.Grammar.Lexeme
import TypedLambda.Grammar.Ty
import TypedLambda.Grammar.Term
import TypedLambda.Grammar.Command
import TypedLambda.Grammar.Read
import TypedLambda.Command.Basic
import TypedLambda.Command.Run
import TypedLambda.Statement
import TypedLambda.Session
import TypedLambda.Repl
import TypedLambda.CommandLine
import TypedLambda.Main
import TypedLambda.Proofs.Substitution.Equations
import TypedLambda.Proofs.Substitution.Fresh
import TypedLambda.Proofs.Substitution.FreeVars
import TypedLambda.Proofs.Typing.Names
import TypedLambda.Proofs.Typing.Inversion
import TypedLambda.Proofs.Typing.Agreement
import TypedLambda.Proofs.Reduction.Frame
import TypedLambda.Proofs.Reduction.Names
import TypedLambda.Proofs.Reduction.Preservation
import TypedLambda.Proofs.Reduction.Progress
import TypedLambda.Proofs.Command.Closing
import TypedLambda.Proofs.Command.Soundness
import TypedLambda.Proofs.Parser.Recursion
import TypedLambda.Proofs.Grammar.Lexeme
import TypedLambda.Proofs.Grammar.Recursion
import TypedLambda.Proofs.Grammar.Layout
import TypedLambda.Proofs.Grammar.Scan
import TypedLambda.Proofs.Text.Letter
import TypedLambda.Proofs.Grammar.Spelling
import TypedLambda.Proofs.Grammar.Reads
import TypedLambda.Proofs.Grammar.Derivation
import TypedLambda.Proofs.Grammar.Completeness
import TypedLambda.Proofs.Grammar.TermCompleteness
import TypedLambda.Proofs.Printer.Ty
import TypedLambda.Proofs.Printer.Term
import TypedLambda.Proofs.Printer.RoundTrip
import TypedLambda.Proofs.Grammar.CommandCompleteness
import TypedLambda.Proofs.Grammar.Number
import TypedLambda.Proofs.Grammar.Rendering
import TypedLambda.Proofs.Reduction.Normalization
import TypedLambda.Proofs.Command.NaiveSubstitution
import TypedLambda.Proofs.Command.Isolation
import TypedLambda.Proofs.Reduction.Evaluation
import TypedLambda.Proofs.Substitution.Alpha
import TypedLambda.Proofs.Substitution.Nameless
import TypedLambda.Proofs.Substitution.Renaming
import TypedLambda.Proofs.Substitution.Capture
import TypedLambda.Proofs.Substitution.Simultaneous
import TypedLambda.Proofs.Command.ClosingOrder
import TypedLambda.Proofs.Typing.Rules
import TypedLambda.Proofs.Typing.Resolution
import TypedLambda.Proofs.Reduction.Lockstep
import TypedLambda.Proofs.Parser.Ensures
import TypedLambda.Proofs.Reduction.Admitted
import TypedLambda.Proofs.Grammar.Names
import TypedLambda.Proofs.Printer.Values
import TypedLambda.Proofs.Parser.Numberless
import TypedLambda.Proofs.Parser.Steady
import TypedLambda.Proofs.Grammar.LeadingBlanks
import TypedLambda.Proofs.Command.Bounds
import TypedLambda.Proofs.Statement.Pieces
import TypedLambda.Proofs.Session.BlankLines
import TypedLambda.Proofs.Session.Runs
import TypedLambda.Proofs.Session.Modes
import TypedLambda.Proofs.Token.Division
import TypedLambda.Proofs.Text.TabStop
import TypedLambda.Proofs.Statement.Joining
import TypedLambda.Proofs.Grammar.Place
import TypedLambda.Proofs.Grammar.Identifiers
import TypedLambda.Proofs.Reduction.Annotations
import TypedLambda.Proofs.Grammar.Alternatives
import TypedLambda.Proofs.Parser.Plan
import TypedLambda.Proofs.Grammar.Termination
import TypedLambda.Proofs.Recursion.Calling
import TypedLambda.Proofs.Substitution.Termination
