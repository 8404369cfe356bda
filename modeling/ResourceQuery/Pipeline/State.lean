import ResourceQuery.Pipeline.EvalError
import ResourceQuery.Value.Json

/-!
The data between two stages of a pipeline: a sequence of records, of groups or of bare values, or a
single value.
-/

set_option autoImplicit false

namespace ResourceQuery

inductive State where
  | records (rows : List Record)
  /-- One record for each group. -/
  | grouped (rows : List Record)
  | values (values : List Value)
  | scalar (value : Value)

namespace State

def kind : State → StateKind
  | .records _ => .records
  | .grouped _ => .grouped
  | .values _ => .values
  | .scalar _ => .scalar

/-- The number of elements; a single value counts as one. -/
def length : State → Nat
  | .records rows | .grouped rows => rows.length
  | .values vs => vs.length
  | .scalar _ => 1

def isEmpty (s : State) : Bool :=
  s.length == 0

def isSequence : State → Bool
  | .scalar _ => false
  | _ => true

def toValue : State → Value
  | .records rows | .grouped rows => .array (rows.map .object)
  | .values vs => .array vs
  | .scalar value => value

def toJson (s : State) : Json :=
  s.toValue.toJson

/-- The elements of a sequence as values. -/
def items? : State → Option (List Value)
  | .records rows | .grouped rows => some (rows.map .object)
  | .values vs => some vs
  | .scalar _ => none

/-- Applies a change that does not look at the elements of a sequence. -/
def reorder? (change : {α : Type} → List α → List α) : State → Option State
  | .records rows => some (.records (change rows))
  | .grouped rows => some (.grouped (change rows))
  | .values vs => some (.values (change vs))
  | .scalar _ => none

/-- The rows of records or groups. -/
def rows? : State → Option (List Record)
  | .records rows | .grouped rows => some rows
  | _ => none

end State

/-- The records of a JSON array of objects. -/
def Record.listOfJson (json : Json) : Except EvalError (List Record) :=
  match Value.ofJson json with
  | .array items => collect 0 items
  | v => .error (.typeError (.notRecords v.typeName))
where
  collect (index : Nat) : List Value → Except EvalError (List Record)
    | [] => .ok []
    | .object fields :: rest => do return fields :: (← collect (index + 1) rest)
    | v :: _ => .error (.typeError (.notRecord index v.typeName))

end ResourceQuery
