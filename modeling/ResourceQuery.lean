import ResourceQuery.Text.Blank
import ResourceQuery.Text.Numeral
import ResourceQuery.Text.Parsed
import ResourceQuery.Text.Percent
import ResourceQuery.Number.Binary64
import ResourceQuery.Number.Shortest
import ResourceQuery.Number.Scientific
import ResourceQuery.Number.Decimal.Text
import ResourceQuery.Number.Decimal.Binary
import ResourceQuery.Calendar.Reader
import ResourceQuery.Uuid
import ResourceQuery.Json.Reader
import ResourceQuery.Json.Printer
import ResourceQuery.Literal
import ResourceQuery.Value.Order
import ResourceQuery.Value.Json
import ResourceQuery.Expr.Parser
import ResourceQuery.Expr.Printer
import ResourceQuery.Pipeline.Compile
import ResourceQuery.Pipeline.Run
import ResourceQuery.Query
import ResourceQuery.CommandLine.Command
import ResourceQuery.Main
import ResourceQuery.Proofs.Except
import ResourceQuery.Proofs.Expr.Readers
import ResourceQuery.Proofs.Expr.Grammar
import ResourceQuery.Proofs.Expr.Soundness
import ResourceQuery.Proofs.Expr.Acceptance
import ResourceQuery.Proofs.Value.Parts
import ResourceQuery.Proofs.Value.Comparison
import ResourceQuery.Proofs.Value.Equality
import ResourceQuery.Proofs.Value.Transitivity
import ResourceQuery.Proofs.Pipeline.SortOrder
import ResourceQuery.Proofs.Number.Scientific
import ResourceQuery.Proofs.Text.Numeral
import ResourceQuery.Proofs.Text.Percent
import ResourceQuery.Proofs.Number.Shortest
import ResourceQuery.Proofs.Calendar.Scan
import ResourceQuery.Proofs.Number.Decimal
import ResourceQuery.Proofs.Uuid
import ResourceQuery.Proofs.Calendar.DateTime
import ResourceQuery.Proofs.Expr.Words
import ResourceQuery.Proofs.Literal
import ResourceQuery.Proofs.Expr.Printing
import ResourceQuery.Proofs.Expr.Rereading
import ResourceQuery.Proofs.Expr.RoundTrip
import ResourceQuery.Proofs.Expr.Restoration
import ResourceQuery.Proofs.Pipeline.Rows
import ResourceQuery.Proofs.Pipeline.Conjunction
import ResourceQuery.Proofs.Pipeline.Compilation
import ResourceQuery.Proofs.Pipeline.RowSelection
import ResourceQuery.Proofs.Pipeline.Sequences
import ResourceQuery.Proofs.Pipeline.Duplicates
import ResourceQuery.Proofs.Pipeline.Slicing
import ResourceQuery.Proofs.Pipeline.Blame
import ResourceQuery.Proofs.Pipeline.Projection
import ResourceQuery.Proofs.Pipeline.KeyAccess
import ResourceQuery.Proofs.Value.Record
import ResourceQuery.Proofs.Pipeline.Grouping
import ResourceQuery.Proofs.Pipeline.Aggregation
import ResourceQuery.Proofs.Pipeline.GroupSelection
import ResourceQuery.Proofs.Query.History
import ResourceQuery.Proofs.Query.Expression
import ResourceQuery.Proofs.Pipeline.Assignment
import ResourceQuery.Proofs.Pipeline.Unwinding
import ResourceQuery.Proofs.Pipeline.ConditionOrder
import ResourceQuery.Proofs.Pipeline.Insertion
import ResourceQuery.Proofs.Pipeline.StableSort
import ResourceQuery.Proofs.Pipeline.SortFailure
import ResourceQuery.Proofs.Number.ExactAddition
import ResourceQuery.Proofs.Pipeline.PathIndependence
import ResourceQuery.Proofs.Pipeline.Spelling
import ResourceQuery.Proofs.Pipeline.SumKind
import ResourceQuery.Proofs.Pipeline.Summation
import ResourceQuery.Proofs.Pipeline.SortResult
import ResourceQuery.Proofs.Pipeline.Extreme
import ResourceQuery.Proofs.Pipeline.SuccessiveSorts
import ResourceQuery.Proofs.Pipeline.Coherence
import ResourceQuery.Proofs.Pipeline.Membership
import ResourceQuery.Proofs.Query.IgnoredClauses
import ResourceQuery.Proofs.Pipeline.WellFormed
import ResourceQuery.Proofs.Expr.Faults
import ResourceQuery.Proofs.Expr.Placement
import ResourceQuery.Proofs.Expr.ErrorPosition
import ResourceQuery.Proofs.Expr.Parentheses
import ResourceQuery.Proofs.Expr.Shorthand
import ResourceQuery.Proofs.Value.TypedText
import ResourceQuery.Proofs.Value.JsonData
import ResourceQuery.Proofs.Number.Forms
import ResourceQuery.Proofs.Detection
import ResourceQuery.Proofs.CommandLine.SyntaxCheck
import ResourceQuery.Proofs.Expr.Strings
import ResourceQuery.Proofs.Expr.Coverage
