import ResourceQuery.Expr.Call
import ResourceQuery.Pipeline.EvalError

/-!
Stable sorting by keys that need not be comparable. Elements are inserted one after the other behind
all that they are not less than, looking from the end of what is sorted already; the first two keys
that do not compare end the sorting.

Up to `insertionLimit` elements are compared in just this way. Of longer lists only that is meant
which every stable sort gives: a rearrangement of the elements, and the one in order where all keys
compare and their order is transitive. Where they do not, it is left open which elements of a longer
list are compared, and so whether two keys that do not compare are noticed.
-/

set_option autoImplicit false

namespace ResourceQuery.Sort

/-- Compares keys position by position. The first position where two keys are not equal decides, in
its direction. -/
def compareKeys : List Direction → List Value → List Value → Except EvalError Ordering
  | direction :: directions, x :: xs, y :: ys =>
    match x.compare? y with
    | some .eq => compareKeys directions xs ys
    | some order => .ok (direction.apply order)
    | none => .error (.typeError (.unsortable x.typeName y.typeName))
  | _, _, _ => .ok .eq

abbrev Keyed (α : Type) := List Value × α

/-- The most elements that are always sorted by inserting one after the other. -/
def insertionLimit : Nat := 20

/-- Inserts an element into a sorted list whose greatest element comes first. -/
def insert {α : Type} (directions : List Direction) (x : Keyed α) :
    List (Keyed α) → Except EvalError (List (Keyed α))
  | [] => .ok [x]
  | y :: rest => do
    match ← compareKeys directions x.1 y.1 with
    | .lt => return y :: (← insert directions x rest)
    | _ => return x :: y :: rest

/-- Inserts elements in their order into a sorted list whose greatest element comes first. -/
def insertAll {α : Type} (directions : List Direction) :
    List (Keyed α) → List (Keyed α) → Except EvalError (List (Keyed α))
  | sorted, [] => .ok sorted
  | sorted, x :: rest => do insertAll directions (← insert directions x sorted) rest

def byKeys {α : Type} (directions : List Direction) (elements : List (Keyed α)) :
    Except EvalError (List α) := do
  return (← insertAll directions [] elements).reverse.map Prod.snd

end ResourceQuery.Sort
