import ResourceQuery.Pipeline.Stage

/-!
Predicates on records. A condition that cannot be tested, because a field is missing or two values
do not compare, is an error and not a failed condition.
-/

set_option autoImplicit false

namespace ResourceQuery

/-- Whether the characters of `part` occur in a row. -/
def occursIn (part : List Char) : List Char → Bool
  | [] => part.isEmpty
  | c :: rest => part.isPrefixOf (c :: rest) || occursIn part rest

namespace Comparison

def admits (order : Ordering) : Comparison → Bool
  | .eq => order == .eq
  | .ne => order != .eq
  | .lt => order == .lt
  | .le => order != .gt
  | .gt => order == .gt
  | .ge => order != .lt

/-- Equality holds or not of any two values; an order asks that they compare. -/
def test (op : Comparison) (left right : Value) : Except EvalError Bool :=
  match op with
  | .eq => .ok (left.looseEq right)
  | .ne => .ok (!left.looseEq right)
  | op =>
    match left.compare? right with
    | some order => .ok (op.admits order)
    | none => .error (.typeError (.incomparable left.typeName right.typeName op))

end Comparison

namespace Predicate

def operandValue (r : Record) : Operand → Except EvalError Value
  | .literal v => .ok v
  | .field path => path.lookup r

/-- Whether a value holds another: an array as an item, a string as a part of it. -/
def holds (negated : Bool) (field : String) (needle : Value) : Value → Except EvalError Bool
  | .array items => .ok (items.any (·.looseEq needle))
  | .string text =>
    match needle with
    | .string part => .ok (occursIn part.toList text.toList)
    | _ => .error (.typeError (.noContainer (.containment negated) field "string"))
  | v => .error (.typeError (.noContainer (.containment negated) field v.typeName))

mutual

/-- Conditions are tested from the first on until the result is known. -/
def test (r : Record) : Predicate → Except EvalError Bool
  | .compare op field operand => do op.test (← field.lookup r) (← operandValue r operand)
  | .member negated field set => do
    let v ← field.lookup r
    return set.any (·.looseEq v) != negated
  | .contains negated field needle => do
    return (← holds negated field.name needle (← field.lookup r)) != negated
  | .and conditions => testAll r conditions
  | .or conditions => testAny r conditions

def testAll (r : Record) : List Predicate → Except EvalError Bool
  | [] => .ok true
  | p :: rest => do if ← test r p then testAll r rest else return false

def testAny (r : Record) : List Predicate → Except EvalError Bool
  | [] => .ok false
  | p :: rest => do if ← test r p then return true else testAny r rest

end

/-- The rows that a predicate holds of. -/
def keep (p : Predicate) : List Record → Except EvalError (List Record)
  | [] => .ok []
  | r :: rest => do
    if ← p.test r then return r :: (← keep p rest) else keep p rest

end Predicate

end ResourceQuery
