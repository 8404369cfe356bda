import ResourceQuery.Pipeline.EvalError
import ResourceQuery.Value.Basic

/-!
Paths to fields, through objects by name and through arrays by position. A path is written with dots
or as a tuple, and its name is the dotted form. Assignment replaces what the path leads to; it adds
a name to an object, but neither makes containers nor lengthens arrays.
-/

set_option autoImplicit false

namespace ResourceQuery

inductive Segment where
  | field (name : String)
  /-- A position in an array, counted from its end where negative, or a name made of digits. -/
  | index (n : Int64)
  deriving DecidableEq

namespace Segment

def ofText (text : String) : Segment :=
  match Text.readInt64? text.toList with
  | some n => .index n
  | none => .field text

/-- The name under which an object holds what the segment leads to. -/
def key : Segment → String
  | .field name => name
  | .index n => String.ofList (Text.int64Digits n)

end Segment

/-- The position that an index means in a list of `length` items. -/
def resolveIndex (index : Int64) (length : Nat) : Option Nat :=
  if index.toInt < 0 then
    if index.toInt.natAbs ≤ length then some (length - index.toInt.natAbs) else none
  else if index.toInt.natAbs < length then some index.toInt.natAbs
  else none

theorem resolveIndex_lt {index : Int64} {length position : Nat}
    (h : resolveIndex index length = some position) : position < length := by
  unfold resolveIndex at h
  split at h
  · split at h
    · simp only [Option.some.injEq] at h
      omega
    · simp at h
  · split at h
    · simp only [Option.some.injEq] at h
      omega
    · simp at h

structure Path where
  name : String
  segments : List Segment
  deriving DecidableEq

namespace Path

mutual

/-- The parts of a field reference in order. -/
def parts : Value → Except EvalError (List String)
  | .string text => .ok ((text.toList.splitOn '.').map String.ofList)
  | .integer n => .ok [String.ofList (Text.int64Digits n)]
  | .array items => partsOfList items
  | v => .error (.typeError (.notName v.typeName))

def partsOfList : List Value → Except EvalError (List String)
  | [] => .ok []
  | item :: rest => do return (← parts item) ++ (← partsOfList rest)

end

def ofParts (ps : List String) : Path :=
  ⟨".".intercalate ps, ps.map Segment.ofText⟩

def ofValue (v : Value) : Except EvalError Path := do
  let ps ← parts v
  if "" ∈ ps then throw (.typeError (.emptySegment (".".intercalate ps)))
  return ofParts ps

/-- The item that an index means, with its position. -/
def itemAt? (n : Int64) (items : List Value) : Option (Nat × Value) :=
  (resolveIndex n items.length).bind fun i ↦ items[i]?.map (i, ·)

/-- What a segment leads to from a value. -/
def step (name : String) (v : Value) (segment : Segment) : Except EvalError Value :=
  let found : Except EvalError (Option Value) :=
    match v, segment with
    | .object fields, _ => .ok (Record.get? segment.key fields)
    | .array items, .index n => .ok ((itemAt? n items).map Prod.snd)
    | _, _ => .error (.typeError (.noAccess segment.key v.typeName name))
  found.bind fun
    | some value => .ok value
    | none => .error (.missingField name)

def walk (name : String) : Value → List Segment → Except EvalError Value
  | v, [] => .ok v
  | v, segment :: rest => do walk name (← step name v segment) rest

/-- What a path leads to. A field that holds null is not missing. -/
def lookup (p : Path) (r : Record) : Except EvalError Value :=
  match p.segments with
  | [] => .error (.missingField p.name)
  | segments => walk p.name (.object r) segments

/-- The value that an assignment goes on from under a name of an object. The last segment may name a
field that does not exist yet, which counts as null. -/
def child (name : String) (old : Option Value) (rest : List Segment) : Except EvalError Value :=
  match old, rest with
  | some v, _ => .ok v
  | none, [] => .ok .null
  | none, _ :: _ => .error (.missingField name)

/-- Puts `value` in the place of what the segments lead to from another value. -/
def replace (name : String) (value : Value) : List Segment → Value → Except EvalError Value
  | [], _ => .ok value
  | segment :: rest, v =>
    match v, segment with
    | .object fields, _ => do
      let old ← child name (Record.get? segment.key fields) rest
      return .object (Record.insert segment.key (← replace name value rest old) fields)
    | .array items, .index n =>
      match itemAt? n items with
      | some (i, old) => do return .array (items.set i (← replace name value rest old))
      | none => .error (.missingField name)
    | _, _ => .error (.typeError (.noAssignment segment.key v.typeName name))

def assign (p : Path) (r : Record) (value : Value) : Except EvalError Record :=
  match p.segments with
  | [] => .error (.missingField p.name)
  | segment :: rest => do
    let old ← child p.name (Record.get? segment.key r) rest
    return Record.insert segment.key (← replace p.name value rest old) r

end Path

end ResourceQuery
