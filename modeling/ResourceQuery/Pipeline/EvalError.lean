import ResourceQuery.Pipeline.Operator
import ResourceQuery.Text.Numeral

/-!
Errors of compiling and running a pipeline: causes, each with what its message names.
-/

set_option autoImplicit false

namespace ResourceQuery

/-- How many arguments an operator takes. -/
inductive Arity where
  | none
  | exactly (n : Nat)
  | atLeast (n : Nat)
  | atMost (n : Nat)
  | either (m n : Nat)
  | exactlyInAggregate (n : Nat)
  deriving DecidableEq

namespace Arity

def admits (n : Nat) : Arity → Bool
  | .none => n == 0
  | .exactly m | .exactlyInAggregate m => n == m
  | .atLeast m => m ≤ n
  | .atMost m => n ≤ m
  | .either l m => n == l || n == m

def describe : Arity → String
  | .none => "no"
  | .exactly n => "exactly " ++ count n
  | .atLeast n => "at least " ++ count n
  | .atMost n => "at most " ++ count n
  | .either m n => count m ++ " or " ++ count n
  | .exactlyInAggregate n => "exactly " ++ count n ++ " inside aggregate()"
where
  count (n : Nat) : String := String.ofList (Text.digits n)

end Arity

/-- What an argument should be. -/
inductive ExpectedArg where
  | field
  | integer
  | array
  | value
  | operand
  | filter
  | aggregate
  deriving DecidableEq

def ExpectedArg.describe : ExpectedArg → String
  | .field => "a field name"
  | .integer => "an integer"
  | .array => "an array"
  | .value => "a value"
  | .operand => "a value or key(field)"
  | .filter => "a filter call"
  | .aggregate => "an aggregate call"

inductive ArgumentFault where
  | unexpected (expected : ExpectedArg) (got : String)
  | nullIndex
  | negative (n : Int64)
  | stepNotPositive (n : Int64)
  | notReduction (name : String)
  | duplicate (function : Reduction)
  | notFilter
  | bareValues (field : String)
  deriving DecidableEq

def ArgumentFault.message : ArgumentFault → String
  | .unexpected expected got => "expected " ++ expected.describe ++ ", got " ++ got
  | .nullIndex => "index must be an integer, got null"
  | .negative n => String.ofList (Text.int64Digits n) ++ " must not be negative"
  | .stepNotPositive n => "step must be positive, got " ++ String.ofList (Text.int64Digits n)
  | .notReduction name => "'" ++ name ++ "' is not an aggregate function"
  | .duplicate function => "duplicate '" ++ function.name ++ "' aggregate"
  | .notFilter => "cannot be used as a filter condition"
  | .bareValues field => "field '" ++ field ++ "' cannot be read from bare values"

/-- Values of the wrong kind. Kinds are named as `Value.typeName` names them. -/
inductive TypeFault where
  | notName (kind : String)
  | emptySegment (path : String)
  | noAccess (segment kind field : String)
  | noAssignment (segment kind field : String)
  | noContainer (op : Operator) (field kind : String)
  | incomparable (left right : String) (op : Comparison)
  | unsortable (left right : String)
  | notArray (field kind : String)
  | notNumeric (kind : String)
  | notDecimal (kind : String)
  | decimalOverflow (function : Reduction)
  | noExtreme (function : Reduction) (value best : String)
  | notRecords (kind : String)
  | notRecord (index : Nat) (kind : String)
  deriving DecidableEq

def TypeFault.message : TypeFault → String
  | .notName kind => "field reference must be a name, got " ++ kind
  | .emptySegment path => "empty segment in field reference '" ++ path ++ "'"
  | .noAccess segment kind field =>
    "cannot access '" ++ segment ++ "' inside " ++ kind ++ " value of field '" ++ field ++ "'"
  | .noAssignment segment kind field =>
    "cannot assign '" ++ segment ++ "' inside " ++ kind ++ " value of field '" ++ field ++ "'"
  | .noContainer op field kind =>
    op.name ++ "() requires an array or string field, '" ++ field ++ "' is " ++ kind
  | .incomparable left right op =>
    "cannot compare " ++ left ++ " with " ++ right ++ " in " ++ op.name ++ "()"
  | .unsortable left right => "cannot sort " ++ left ++ " against " ++ right
  | .notArray field kind => "unwind() requires an array field, '" ++ field ++ "' is " ++ kind
  | .notNumeric kind => "sum() requires numeric values, got " ++ kind
  | .notDecimal kind => "cannot use " ++ kind ++ " as a decimal"
  | .decimalOverflow function => "decimal overflow in " ++ function.name ++ "()"
  | .noExtreme function value best =>
    function.name ++ "() cannot compare " ++ value ++ " with " ++ best
  | .notRecords kind => "input must be an array of objects, got " ++ kind
  | .notRecord index kind =>
    "input element " ++ String.ofList (Text.digits index) ++ " must be an object, got " ++ kind

/-- The shape of the data between two stages. -/
inductive StateKind where
  | records
  | grouped
  | values
  | scalar
  deriving DecidableEq

def StateKind.describe : StateKind → String
  | .records => "records"
  | .grouped => "grouped records"
  | .values => "values"
  | .scalar => "scalar"

/-- The shapes that a stage can be applied to. -/
inductive ExpectedState where
  | records
  | values
  | sequence
  | recordsOrRecord
  | recordsOrValues
  deriving DecidableEq

def ExpectedState.describe : ExpectedState → String
  | .records => "records"
  | .values => "values"
  | .sequence => "a sequence"
  | .recordsOrRecord => "records or a single record"
  | .recordsOrValues => "records or values"

inductive EvalError where
  | unknownOperator (name : String)
  | arity (op : Operator) (expected : Arity) (found : Nat)
  | invalidArgument (op : Operator) (fault : ArgumentFault)
  | missingField (field : String)
  | typeError (fault : TypeFault)
  | emptySequence (op : Operator)
  | notExactlyOne (found : Nat)
  | indexOutOfRange (index : Int64) (length : Nat)
  | stateMismatch (op : Operator) (expected : ExpectedState) (found : StateKind)
  /-- The failure of one stage of a pipeline. -/
  | stage (position : Nat) (operator : String) (source : EvalError)
  deriving DecidableEq

namespace EvalError

def message : EvalError → String
  | .unknownOperator name => "unknown operator '" ++ name ++ "'"
  | .arity op expected found =>
    op.name ++ "() takes " ++ expected.describe ++ " argument(s), got " ++
      String.ofList (Text.digits found)
  | .invalidArgument op fault => "invalid argument to " ++ op.name ++ "(): " ++ fault.message
  | .missingField field => "missing field '" ++ field ++ "'"
  | .typeError fault => "type error: " ++ fault.message
  | .emptySequence op => op.name ++ "() of an empty sequence"
  | .notExactlyOne found =>
    "one() expects exactly one result, found " ++ String.ofList (Text.digits found)
  | .indexOutOfRange index length =>
    "index " ++ String.ofList (Text.int64Digits index) ++ " out of range for " ++
      String.ofList (Text.digits length) ++ " element(s)"
  | .stateMismatch op expected found =>
    op.name ++ "() cannot be applied to " ++ found.describe ++ ", expected " ++ expected.describe
  | .stage position operator source =>
    "stage " ++ String.ofList (Text.digits position) ++ " (" ++ operator ++ "): " ++ source.message

/-- The error within the stages that wrap it. -/
def rootCause : EvalError → EvalError
  | .stage _ _ source => source.rootCause
  | e => e

end EvalError

end ResourceQuery
