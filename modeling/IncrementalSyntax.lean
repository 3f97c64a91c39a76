import IncrementalSyntax.Green.Builder
import IncrementalSyntax.Green.Dump
import IncrementalSyntax.Stream.Buffer
import IncrementalSyntax.Text.LineIndex
import IncrementalSyntax.Tree.Basic
import IncrementalSyntax.View.Summary
import IncrementalSyntax.Proofs.Token.Locality
import IncrementalSyntax.Proofs.Green.Leaves
import IncrementalSyntax.Proofs.Grammar.Independence
import IncrementalSyntax.Proofs.Text.History
import IncrementalSyntax.Proofs.Tree.Accepted
import IncrementalSyntax.Proofs.Tree.Session
import IncrementalSyntax.Proofs.Ast.Basic
import IncrementalSyntax.Proofs.Ast.Expressions
import IncrementalSyntax.Proofs.Ast.Statements
import IncrementalSyntax.Proofs.Ast.Members
import IncrementalSyntax.Proofs.Tree.ReadBack
import IncrementalSyntax.Proofs.Tree.Directives
import IncrementalSyntax.Proofs.Grammar.Declarations
import IncrementalSyntax.Proofs.Tree.Declared
import IncrementalSyntax.Proofs.Grammar.Simulation
import IncrementalSyntax.Proofs.Green.Pool
import IncrementalSyntax.Proofs.Green.Builder
import IncrementalSyntax.Proofs.Tree.Sharing
import IncrementalSyntax.Proofs.Grammar.Events
import IncrementalSyntax.Proofs.Grammar.Driving
import IncrementalSyntax.Proofs.Grammar.Discipline
import IncrementalSyntax.Proofs.Tree.Discipline
import IncrementalSyntax.Proofs.Directive.Symbols
import IncrementalSyntax.Proofs.Directive.Lines
import IncrementalSyntax.Proofs.Directive.Complaints
import IncrementalSyntax.Proofs.Token.Complaints
import IncrementalSyntax.Proofs.Directive.Sentences
import IncrementalSyntax.Proofs.Directive.Groups
import IncrementalSyntax.Proofs.Grammar.Listed
import IncrementalSyntax.Proofs.Stream.Shared
import IncrementalSyntax.Proofs.Tree.Shared
import IncrementalSyntax.Proofs.Token.Reprint
import IncrementalSyntax.Proofs.Token.SingleLine
import IncrementalSyntax.Proofs.Tree.LeftOut
import IncrementalSyntax.Proofs.Red.Diff
import IncrementalSyntax.Proofs.Tree.Status
import IncrementalSyntax.Proofs.Tree.Precedence
import IncrementalSyntax.Proofs.Tree.Recovery
import IncrementalSyntax.Proofs.Tree.Origins
import IncrementalSyntax.Proofs.Tree.Reports
import IncrementalSyntax.Proofs.Text.Changes
import IncrementalSyntax.Proofs.Red.Offsets
import IncrementalSyntax.Proofs.Tree.Annotating
import IncrementalSyntax.Proofs.Tree.Identities
import IncrementalSyntax.Proofs.Text.Lines
import IncrementalSyntax.Proofs.Stream.Clean
import IncrementalSyntax.Proofs.Red.Traversal
import IncrementalSyntax.Proofs.Token.Intact
import IncrementalSyntax.Proofs.Tree.Intact
import IncrementalSyntax.Proofs.Green.Summaries
import IncrementalSyntax.Proofs.Grammar.Types
import IncrementalSyntax.Proofs.Stream.Slots
import IncrementalSyntax.Proofs.Grammar.Speculation
