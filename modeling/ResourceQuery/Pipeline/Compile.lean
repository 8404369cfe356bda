import ResourceQuery.Pipeline.Stage

/-!
Compilation of calls into predicates and stages. The number of arguments and the kind of each are
checked here, once, so that a compiled stage can be run on any data without looking at them again.
-/

set_option autoImplicit false

namespace ResourceQuery

namespace Compile

def lookup (name : String) : Except EvalError Operator :=
  match Operator.ofName? name with
  | some op => .ok op
  | none => .error (.unknownOperator name)

def expectArity (op : Operator) (expected : Arity) (args : List Arg) : Except EvalError Unit :=
  if expected.admits args.length then .ok () else .error (.arity op expected args.length)

def unexpected (op : Operator) (expected : ExpectedArg) (arg : Arg) : EvalError :=
  .invalidArgument op (.unexpected expected arg.kind)

def field (op : Operator) : Arg → Except EvalError Path
  | .value v => Path.ofValue v
  | arg => .error (unexpected op .field arg)

/-- An integer, or nothing where the argument is null. -/
def integer (op : Operator) : Arg → Except EvalError (Option Int64)
  | .value .null => .ok none
  | .value (.integer n) => .ok (some n)
  | arg => .error (unexpected op .integer arg)

/-- A count, or nothing where the argument is null. -/
def count (op : Operator) (arg : Arg) : Except EvalError (Option Nat) := do
  match ← integer op arg with
  | some n =>
    if n.toInt < 0 then throw (.invalidArgument op (.negative n)) else return some n.toInt.natAbs
  | none => return none

/-- The only argument of an operator that takes a field. -/
def onlyField (op : Operator) : List Arg → Except EvalError Path
  | [arg] => field op arg
  | args => .error (.arity op (.exactly 1) args.length)

/-- The two arguments of a filter. -/
def twoArgs (op : Operator) : List Arg → Except EvalError (Arg × Arg)
  | [first, second] => .ok (first, second)
  | args => .error (.arity op (.exactly 2) args.length)

/-- A value, or `key(field)`. -/
def operand (op : Operator) (arg : Arg) : Except EvalError Operand :=
  match arg with
  | .value v => .ok (.literal v)
  | .call name args =>
    if name = Operator.key.name then do return .field (← onlyField .key args)
    else .error (unexpected op .operand arg)
  | .sortKey _ _ => .error (unexpected op .operand arg)

mutual

/-- A call as a condition of `parent`. -/
def predicate (parent : Operator) : Arg → Except EvalError Predicate
  | .call name args => do
    let op ← lookup name
    match op with
    | .comparison comparison =>
      let (left, right) ← twoArgs op args
      return .compare comparison (← field op left) (← operand op right)
    | .membership negated =>
      let (left, right) ← twoArgs op args
      match right with
      | .value (.array set) => return .member negated (← field op left) set
      | arg => throw (unexpected op .array arg)
    | .containment negated =>
      let (left, right) ← twoArgs op args
      match right with
      | .value needle => return .contains negated (← field op left) needle
      | arg => throw (unexpected op .value arg)
    | .and =>
      expectArity op (.atLeast 1) args
      return .and (← predicates op args)
    | .or =>
      expectArity op (.atLeast 1) args
      return .or (← predicates op args)
    | _ => throw (.invalidArgument op .notFilter)
  | arg => .error (unexpected parent .filter arg)

def predicates (parent : Operator) : List Arg → Except EvalError (List Predicate)
  | [] => .ok []
  | arg :: rest => do return (← predicate parent arg) :: (← predicates parent rest)

end

def sortSpec (op : Operator) : Arg → Except EvalError SortSpec
  | .sortKey direction key => do return ⟨← Path.ofValue key, direction⟩
  | arg => do return ⟨← field op arg, .ascending⟩

/-- The smaller of two bounds, either of which may be missing. -/
def minBound : Option Nat → Option Nat → Option Nat
  | some m, some n => some (min m n)
  | some m, none => some m
  | none, bound => bound

def limit (maxLimit : Option Nat) : List Arg → Except EvalError Stage
  | [bound] => do return .limit (minBound (← count .limit bound) maxLimit) 0
  | [bound, start] => do
    return .limit (minBound (← count .limit bound) maxLimit) ((← count .limit start).getD 0)
  | args => .error (.arity .limit (.either 1 2) args.length)

/-- The step of a slice, which is one where it is null. -/
def sliceStep (arg : Arg) : Except EvalError Nat := do
  match ← integer .slice arg with
  | some n =>
    if 0 < n.toInt then return n.toInt.natAbs
    else throw (.invalidArgument .slice (.stepNotPositive n))
  | none => return 1

/-- A single argument is the end of the slice. -/
def slice : List Arg → Except EvalError Stage
  | [] => .ok (.slice none none 1)
  | [stop] => do return .slice none (← integer .slice stop) 1
  | [start, stop] => do return .slice (← integer .slice start) (← integer .slice stop) 1
  | [start, stop, step] => do
    return .slice (← integer .slice start) (← integer .slice stop) (← sliceStep step)
  | args => .error (.arity .slice (.atMost 3) args.length)

def index : List Arg → Except EvalError Stage
  | [arg] => do
    match ← integer .index arg with
    | some n => return .index n
    | none => throw (.invalidArgument .index .nullIndex)
  | args => .error (.arity .index (.exactly 1) args.length)

/-- Counting needs no field and does not look at one. -/
def reducer (function : Reduction) (args : List Arg) : Except EvalError Reducer := do
  let op := Operator.reduction function
  expectArity op (.atMost 1) args
  match function, args with
  | .count, _ | _, [] => return ⟨function, none⟩
  | _, arg :: _ => return ⟨function, some (← field op arg)⟩

/-- A reduction within `aggregate`, where all but counting need a field. -/
def innerReducer : Arg → Except EvalError Reducer
  | .call name args => do
    match ← lookup name with
    | .reduction function =>
      let r ← reducer function args
      if function ≠ .count ∧ r.field.isNone then
        throw (.arity (.reduction function) (.exactlyInAggregate 1) 0)
      return r
    | _ => throw (.invalidArgument .aggregate (.notReduction name))
  | arg => .error (unexpected .aggregate .aggregate arg)

/-- The reductions of an aggregate, of which no two may be the same. -/
def innerReducers (seen : List Reduction) : List Arg → Except EvalError (List Reducer)
  | [] => .ok []
  | arg :: rest => do
    let r ← innerReducer arg
    if r.function ∈ seen then throw (.invalidArgument .aggregate (.duplicate r.function))
    return r :: (← innerReducers (r.function :: seen) rest)

def aggregate : List Arg → Except EvalError Stage
  | key :: first :: rest => do
    return .aggregate (← field .aggregate key) (← innerReducers [] (first :: rest))
  | args => .error (.arity .aggregate (.atLeast 2) args.length)

def noArgs (op : Operator) (stage : Stage) (args : List Arg) : Except EvalError Stage := do
  expectArity op .none args
  return stage

end Compile

namespace Call

open Compile

def compilePredicate (c : Call) : Except EvalError Predicate :=
  predicate .and c.toArg

/-- Compiles a call into a stage. No limit counts more than `maxLimit`. -/
def compile (maxLimit : Option Nat) (c : Call) : Except EvalError Stage := do
  let op ← lookup c.name
  match op with
  | .select =>
    expectArity op (.atLeast 1) c.args
    return .select (← c.args.mapM (field op))
  | .values => return .values (← onlyField op c.args)
  | .unwind => return .unwind (← onlyField op c.args)
  | .key => return .key (← onlyField op c.args)
  | .sort => return .sort (← c.args.mapM (sortSpec op))
  | .limit => limit maxLimit c.args
  | .slice => slice c.args
  | .index => index c.args
  | .distinct => noArgs op .distinct c.args
  | .first => noArgs op .first c.args
  | .one => noArgs op .one c.args
  | .reduction function => return .reduce (← reducer function c.args)
  | .aggregate => aggregate c.args
  | .comparison _ | .membership _ | .containment _ | .and | .or =>
    return .filter (← c.compilePredicate)

end Call

end ResourceQuery
