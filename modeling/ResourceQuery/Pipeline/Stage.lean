import ResourceQuery.Expr.Call
import ResourceQuery.Pipeline.Path

/-!
Compiled pipelines: predicates over one record, and the stages that a pipeline is made of.
-/

set_option autoImplicit false

namespace ResourceQuery

/-- The right side of a comparison. -/
inductive Operand where
  | literal (v : Value)
  /-- Another field of the same record. -/
  | field (path : Path)

inductive Predicate where
  | compare (op : Comparison) (field : Path) (operand : Operand)
  | member (negated : Bool) (field : Path) (set : List Value)
  | contains (negated : Bool) (field : Path) (needle : Value)
  | and (conditions : List Predicate)
  | or (conditions : List Predicate)

def Predicate.operator : Predicate → Operator
  | .compare op _ _ => .comparison op
  | .member negated _ _ => .membership negated
  | .contains negated _ _ => .containment negated
  | .and _ => .and
  | .or _ => .or

structure Reducer where
  function : Reduction
  field : Option Path

structure SortSpec where
  field : Path
  direction : Direction

inductive Stage where
  | filter (predicate : Predicate)
  | select (fields : List Path)
  | values (field : Path)
  /-- Without keys, bare values are sorted by themselves. -/
  | sort (keys : List SortSpec)
  | limit (count : Option Nat) (start : Nat)
  | slice (start stop : Option Int64) (step : Nat)
  | index (n : Int64)
  | distinct
  | first
  | one
  | unwind (field : Path)
  | key (field : Path)
  | reduce (reducer : Reducer)
  | aggregate (key : Path) (reducers : List Reducer)

namespace Stage

def operator : Stage → Operator
  | .filter predicate => predicate.operator
  | .select _ => .select
  | .values _ => .values
  | .sort _ => .sort
  | .limit _ _ => .limit
  | .slice _ _ _ => .slice
  | .index _ => .index
  | .distinct => .distinct
  | .first => .first
  | .one => .one
  | .unwind _ => .unwind
  | .key _ => .key
  | .reduce reducer => .reduction reducer.function
  | .aggregate _ _ => .aggregate

def name (s : Stage) : String :=
  s.operator.name

def isLimit : Stage → Bool
  | .limit _ _ => true
  | _ => false

end Stage

end ResourceQuery
