import ResourceQuery.Number.Integer
import ResourceQuery.Pipeline.EvalError
import ResourceQuery.Value.Order

/-!
Reductions of a list of values to one. A sum stays an integer while it fits, is a decimal where a
decimal takes part in it, and a float otherwise; a mean is an integer where the division is exact.
-/

set_option autoImplicit false

namespace ResourceQuery

namespace Reduce

open Number (Binary64 Decimal)

def toDecimal (v : Value) : Except EvalError Decimal :=
  let converted :=
    match v with
    | .decimal d => some d
    | .integer n => some (Decimal.ofInt64 n)
    | .float x => Decimal.ofBinary64? x
    | _ => none
  match converted with
  | some d => .ok d
  | none => .error (.typeError (.notDecimal v.typeName))

def addDecimals (a b : Value) : Except EvalError Value := do
  let d ← toDecimal a
  let e ← toDecimal b
  match d.add? e with
  | some total => return .decimal total
  | none => throw (.typeError (.decimalOverflow .sum))

def notNumeric (v : Value) : EvalError :=
  .typeError (.notNumeric v.typeName)

/-- Adds a value to a total. -/
def add (total v : Value) : Except EvalError Value :=
  if !v.isNumeric then .error (notNumeric v)
  else
    match total, v with
    | .integer m, .integer n =>
      match Number.add? m n with
      | some sum => .ok (.integer sum)
      | none => .ok (.float ((Binary64.ofInt m.toInt).add (.ofInt n.toInt)))
    | .decimal _, _ | _, .decimal _ => addDecimals total v
    | _, _ =>
      match total.toBinary64?, v.toBinary64? with
      | some x, some y => .ok (.float (x.add y))
      | _, _ => .error (notNumeric v)

def sum (values : List Value) : Except EvalError Value :=
  values.foldlM add (.integer 0)

/-- Divides a total by the number of values in it. -/
def divide (total : Value) (length : Nat) : Except EvalError Value :=
  match total with
  | .integer n =>
    if n.toInt % length = 0 then .ok (.integer (Int64.ofInt (n.toInt / length)))
    else .ok (.float ((Binary64.ofInt n.toInt).div (.ofInt length)))
  | .decimal d =>
    match d.divNat? length with
    | some quotient => .ok (.decimal quotient)
    | none => .error (.typeError (.decimalOverflow .mean))
  | v =>
    match v.toBinary64? with
    | some x => .ok (.float (x.div (.ofInt length)))
    | none => .error (notNumeric v)

def mean (values : List Value) : Except EvalError Value :=
  if values.isEmpty then .error (.emptySequence (.reduction .mean))
  else do divide (← sum values) values.length

/-- The value that the others do not surpass, where to surpass is to compare as `wanted`. Of equal
values the first one stays. -/
def extremeFrom (function : Reduction) (wanted : Ordering) :
    Value → List Value → Except EvalError Value
  | best, [] => .ok best
  | best, v :: rest =>
    match v.compare? best with
    | some order => extremeFrom function wanted (if order = wanted then v else best) rest
    | none => .error (.typeError (.noExtreme function v.typeName best.typeName))

def extreme (function : Reduction) (wanted : Ordering) : List Value → Except EvalError Value
  | [] => .error (.emptySequence (.reduction function))
  | first :: rest => extremeFrom function wanted first rest

def count {α : Type} (elements : List α) : Value :=
  .integer (Number.saturateInt64 elements.length)

end Reduce

def Reduction.apply (function : Reduction) (values : List Value) : Except EvalError Value :=
  match function with
  | .count => .ok (Reduce.count values)
  | .sum => Reduce.sum values
  | .mean => Reduce.mean values
  | .min => Reduce.extreme .min .lt values
  | .max => Reduce.extreme .max .gt values

end ResourceQuery
