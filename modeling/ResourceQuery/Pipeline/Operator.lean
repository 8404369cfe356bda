/-!
The operators that a call may name, by families. Comparisons and reductions are types of their own,
because compiled filters and aggregates hold nothing else.
-/

set_option autoImplicit false

namespace ResourceQuery

inductive Comparison where
  | eq
  | ne
  | lt
  | le
  | gt
  | ge
  deriving DecidableEq

def Comparison.name : Comparison → String
  | .eq => "eq"
  | .ne => "ne"
  | .lt => "lt"
  | .le => "le"
  | .gt => "gt"
  | .ge => "ge"

inductive Reduction where
  | sum
  | mean
  | max
  | min
  | count
  deriving DecidableEq

def Reduction.name : Reduction → String
  | .sum => "sum"
  | .mean => "mean"
  | .max => "max"
  | .min => "min"
  | .count => "count"

def Reduction.all : List Reduction :=
  [.sum, .mean, .max, .min, .count]

inductive Operator where
  | comparison (op : Comparison)
  /-- `in` and, negated, `out`. -/
  | membership (negated : Bool)
  /-- `contains` and, negated, `excludes`. -/
  | containment (negated : Bool)
  | and
  | or
  | select
  | values
  | sort
  | limit
  | slice
  | index
  | distinct
  | first
  | one
  | unwind
  | key
  | reduction (function : Reduction)
  | aggregate
  deriving DecidableEq

namespace Operator

def all : List Operator :=
  [.comparison .eq, .comparison .ne, .comparison .lt, .comparison .le, .comparison .gt,
    .comparison .ge, .membership false, .membership true, .containment false, .containment true,
    .and, .or, .select, .values, .sort, .limit, .slice, .index, .distinct, .first, .one, .unwind,
    .key, .reduction .sum, .reduction .mean, .reduction .max, .reduction .min, .reduction .count,
    .aggregate]

theorem mem_all (op : Operator) : op ∈ all := by
  cases op with
  | comparison op => cases op <;> decide
  | membership negated => cases negated <;> decide
  | containment negated => cases negated <;> decide
  | reduction function => cases function <;> decide
  | _ => decide

def name : Operator → String
  | .comparison op => op.name
  | .membership negated => if negated then "out" else "in"
  | .containment negated => if negated then "excludes" else "contains"
  | .and => "and"
  | .or => "or"
  | .select => "select"
  | .values => "values"
  | .sort => "sort"
  | .limit => "limit"
  | .slice => "slice"
  | .index => "index"
  | .distinct => "distinct"
  | .first => "first"
  | .one => "one"
  | .unwind => "unwind"
  | .key => "key"
  | .reduction function => function.name
  | .aggregate => "aggregate"

def ofName? (name : String) : Option Operator :=
  all.find? (·.name == name)

theorem ofName?_name (op : Operator) : ofName? op.name = some op := by
  have hall : ∀ op ∈ all, ofName? op.name = some op := by decide
  exact hall op (mem_all op)

/-- Whether the operator keeps or drops whole records. -/
def isFilter : Operator → Bool
  | .comparison _ | .membership _ | .containment _ | .and | .or => true
  | _ => false

def isReduction : Operator → Bool
  | .reduction _ => true
  | _ => false

end Operator

end ResourceQuery
