import ResourceQuery.Pipeline.Filter
import ResourceQuery.Pipeline.Reduce
import ResourceQuery.Pipeline.Sort
import ResourceQuery.Pipeline.State

/-!
Stages on states. Each stage accepts some shapes of state and gives an error for the others; what it
does to the elements does not depend on the shape.
-/

set_option autoImplicit false

namespace ResourceQuery

namespace Path

/-- What a path leads to in each of the rows. -/
def extract (p : Path) (rows : List Record) : Except EvalError (List Value) :=
  rows.mapM p.lookup

end Path

namespace State

def mismatch (op : Operator) (expected : ExpectedState) (s : State) : EvalError :=
  .stateMismatch op expected s.kind

/-- The rows of a state, which other states do not have. -/
def rows (op : Operator) (s : State) : Except EvalError (List Record) :=
  match s.rows? with
  | some rows => .ok rows
  | none => .error (mismatch op .records s)

/-- The elements of a state, which a single value does not have. -/
def items (op : Operator) (s : State) : Except EvalError (List Value) :=
  match s.items? with
  | some items => .ok items
  | none => .error (mismatch op .sequence s)

def reorder (op : Operator) (change : {α : Type} → List α → List α) (s : State) :
    Except EvalError State :=
  match s.reorder? change with
  | some s => .ok s
  | none => .error (mismatch op .sequence s)

def filter (p : Predicate) : State → Except EvalError State
  | .records rows => do return .records (← p.keep rows)
  | .grouped rows => do return .grouped (← p.keep rows)
  | s => .error (mismatch p.operator .records s)

/-- The record of the values that paths lead to, each under the name of its path. -/
def project (fields : List Path) (r : Record) : Except EvalError Record := do
  let pairs ← fields.mapM fun field ↦ do return (field.name, ← field.lookup r)
  return Record.ofFields pairs

def select (fields : List Path) : State → Except EvalError State
  | .records rows => do return .records (← rows.mapM (project fields))
  | .grouped rows => do return .grouped (← rows.mapM (project fields))
  | .scalar (.object r) => do return .scalar (.object (← project fields r))
  | s => .error (mismatch .select .records s)

def extractValues (field : Path) (s : State) : Except EvalError State := do
  return .values (← field.extract (← rows .values s))

def key (field : Path) : State → Except EvalError State
  | .records rows | .grouped rows => do return .values (← field.extract rows)
  | .scalar (.object r) => do return .scalar (← field.lookup r)
  | s => .error (mismatch .key .recordsOrRecord s)

def sortRows (keys : List SortSpec) (rows : List Record) : Except EvalError (List Record) := do
  let keyed ← rows.mapM fun r ↦ do return (← keys.mapM (·.field.lookup r), r)
  Sort.byKeys (keys.map SortSpec.direction) keyed

def sort (keys : List SortSpec) (s : State) : Except EvalError State :=
  if keys.isEmpty then
    match s with
    | .values vs => do
      return .values (← Sort.byKeys [.ascending] (vs.map fun v ↦ ([v], v)))
    | s => .error (mismatch .sort .values s)
  else
    match s with
    | .records rows => do return .records (← sortRows keys rows)
    | .grouped rows => do return .grouped (← sortRows keys rows)
    | s => .error (mismatch .sort .records s)

def limited (count : Option Nat) (start : Nat) {α : Type} (elements : List α) : List α :=
  match count with
  | some count => (elements.drop start).take count
  | none => elements.drop start

/-- The position that a bound of a slice means in a list of `length` elements. -/
def clamp (length : Nat) (bound : Int64) : Nat :=
  if bound.toInt < 0 then length - bound.toInt.natAbs else min bound.toInt.natAbs length

/-- The first of every `step` elements. -/
def everyNth {α : Type} (step : Nat) : List α → List α
  | [] => []
  | x :: rest => x :: everyNth step (rest.drop (step - 1))
termination_by elements => elements.length
decreasing_by simp only [List.length_drop, List.length_cons]; omega

def sliced (start stop : Option Int64) (step : Nat) {α : Type} (elements : List α) : List α :=
  let start := (start.map (clamp elements.length)).getD 0
  let stop := (stop.map (clamp elements.length)).getD elements.length
  everyNth step ((elements.take stop).drop start)

/-- The elements that are not equal to an earlier one that is kept. -/
def distinctBy {α : Type} (equal : α → α → Bool) (kept : List α) : List α → List α
  | [] => []
  | x :: rest =>
    if kept.any (equal · x) then distinctBy equal kept rest
    else x :: distinctBy equal (x :: kept) rest

def distinct : State → Except EvalError State
  | .records rows => .ok (.records (distinctBy Record.looseEq [] rows))
  | .grouped rows => .ok (.grouped (distinctBy Record.looseEq [] rows))
  | .values vs => .ok (.values (distinctBy Value.looseEq [] vs))
  | s => .error (mismatch .distinct .sequence s)

def first (s : State) : Except EvalError State := do
  match ← items .first s with
  | v :: _ => return .scalar v
  | [] => throw (.emptySequence .first)

def one (s : State) : Except EvalError State := do
  match ← items .one s with
  | [v] => return .scalar v
  | found => throw (.notExactlyOne found.length)

def index (n : Int64) (s : State) : Except EvalError State := do
  let items ← items .index s
  match Path.itemAt? n items with
  | some (_, v) => return .scalar v
  | none => throw (.indexOutOfRange n items.length)

/-- One copy of a record for each item of an array in it, with the item in the place of the
array. -/
def unwindRow (field : Path) (r : Record) : Except EvalError (List Record) := do
  match ← field.lookup r with
  | .array items => items.mapM (field.assign r)
  | v => throw (.typeError (.notArray field.name v.typeName))

def unwind (field : Path) (s : State) : Except EvalError State := do
  let rows ← rows .unwind s
  return .records (← rows.mapM (unwindRow field)).flatten

def reduce (reducer : Reducer) (s : State) : Except EvalError State :=
  let op := Operator.reduction reducer.function
  match s, reducer.field with
  | .values vs, none => do return .scalar (← reducer.function.apply vs)
  | .values _, some field => .error (.invalidArgument op (.bareValues field.name))
  | .records rows, field? | .grouped rows, field? =>
    if reducer.function = .count then .ok (.scalar (Reduce.count rows))
    else
      match field? with
      | some field => do return .scalar (← reducer.function.apply (← field.extract rows))
      | none => .error (.arity op (.exactly 1) 0)
  | s, _ => .error (mismatch op .recordsOrValues s)

/-- A group key with the rows that have it, in their order. -/
abbrev Group := Value × List Record

/-- Adds a row to the first group with an equal key, or as a group of its own at the end. -/
def addToGroup (key : Value) (r : Record) : List Group → List Group
  | [] => [(key, [r])]
  | (seen, members) :: rest =>
    if seen.looseEq key then (seen, members ++ [r]) :: rest
    else (seen, members) :: addToGroup key r rest

def groups (key : Path) (rows : List Record) : Except EvalError (List Group) :=
  rows.foldlM (fun gs r ↦ do return addToGroup (← key.lookup r) r gs) []

/-- The result of a reducer for the rows of a group. -/
def reduceGroup (members : List Record) (reducer : Reducer) : Except EvalError Value :=
  match reducer.field with
  | some field => do reducer.function.apply (← field.extract members)
  | none => .ok (Reduce.count members)

def summarize (key : Path) (reducers : List Reducer) (g : Group) : Except EvalError Record := do
  let results ← reducers.mapM fun reducer ↦ do
    return (reducer.function.name, ← reduceGroup g.2 reducer)
  return Record.ofFields ((key.name, g.1) :: results)

def aggregate (key : Path) (reducers : List Reducer) (s : State) : Except EvalError State := do
  let rows ← rows .aggregate s
  return .grouped (← (← groups key rows).mapM (summarize key reducers))

end State

/-- Applies a stage to a state. -/
def Stage.run (stage : Stage) (s : State) : Except EvalError State :=
  match stage with
  | .filter p => s.filter p
  | .select fields => s.select fields
  | .values field => s.extractValues field
  | .sort keys => s.sort keys
  | .limit count start => s.reorder .limit (State.limited count start)
  | .slice start stop step => s.reorder .slice (State.sliced start stop step)
  | .index n => s.index n
  | .distinct => s.distinct
  | .first => s.first
  | .one => s.one
  | .unwind field => s.unwind field
  | .key field => s.key field
  | .reduce reducer => s.reduce reducer
  | .aggregate groupKey reducers => s.aggregate groupKey reducers

end ResourceQuery
