import PolyAlgebra.Decimal
import PolyAlgebra.Directive.Arguments
import PolyAlgebra.Directive.Attribute
import PolyAlgebra.Directive.Comment
import PolyAlgebra.Directive.Expansion
import PolyAlgebra.Directive.Letter
import PolyAlgebra.Directive.Literal
import PolyAlgebra.Directive.Mark
import PolyAlgebra.Environment
import PolyAlgebra.Expr
import PolyAlgebra.Expr.Parse
import PolyAlgebra.Fault
import PolyAlgebra.Form
import PolyAlgebra.Number
import PolyAlgebra.Parser
import PolyAlgebra.Parser.Action
import PolyAlgebra.Parser.Expression
import PolyAlgebra.Proofs.Agreement
import PolyAlgebra.Proofs.ArgumentLists
import PolyAlgebra.Proofs.Backtracking
import PolyAlgebra.Proofs.Blame
import PolyAlgebra.Proofs.Canonical
import PolyAlgebra.Proofs.Commutation
import PolyAlgebra.Proofs.Derivatives
import PolyAlgebra.Proofs.Directives
import PolyAlgebra.Proofs.Doubles
import PolyAlgebra.Proofs.Drafts
import PolyAlgebra.Proofs.Entries
import PolyAlgebra.Proofs.Equality
import PolyAlgebra.Proofs.Exchange
import PolyAlgebra.Proofs.Grouping
import PolyAlgebra.Proofs.Height
import PolyAlgebra.Proofs.Histories
import PolyAlgebra.Proofs.Layers
import PolyAlgebra.Proofs.Leaves
import PolyAlgebra.Proofs.Limits
import PolyAlgebra.Proofs.Lowering
import PolyAlgebra.Proofs.Moves
import PolyAlgebra.Proofs.Numerals
import PolyAlgebra.Proofs.OnePass
import PolyAlgebra.Proofs.Operands
import PolyAlgebra.Proofs.Overflow
import PolyAlgebra.Proofs.Partition
import PolyAlgebra.Proofs.Patterns
import PolyAlgebra.Proofs.Places
import PolyAlgebra.Proofs.Pointing
import PolyAlgebra.Proofs.PostOrder
import PolyAlgebra.Proofs.Printing
import PolyAlgebra.Proofs.Progress
import PolyAlgebra.Proofs.Relocation
import PolyAlgebra.Proofs.Reports
import PolyAlgebra.Proofs.Requests
import PolyAlgebra.Proofs.Scanning
import PolyAlgebra.Proofs.Sentences
import PolyAlgebra.Proofs.Separation
import PolyAlgebra.Proofs.Shape
import PolyAlgebra.Proofs.Slices
import PolyAlgebra.Proofs.Staging
import PolyAlgebra.Proofs.Unbound
import PolyAlgebra.Proofs.Visits
import PolyAlgebra.Proofs.Words
import PolyAlgebra.Report
import PolyAlgebra.Token
import PolyAlgebra.Tree
