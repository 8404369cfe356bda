import ResourceQuery.Literal
import ResourceQuery.Number.Decimal.Binary

/-!
Comparison and equality of values. Numbers of every kind compare by value, strings are read as the
kind that they meet, and values of unrelated kinds do not compare. Loose equality follows comparison
and goes into arrays and objects; identity keeps the kinds apart.
-/

set_option autoImplicit false

namespace ResourceQuery

open Number (Binary64 Decimal)
open Calendar (Date DateTime)

/-- Seconds since the start of 1970, whole seconds and fraction converted apart. -/
def Calendar.DateTime.toBinary64 (t : DateTime) : Binary64 :=
  (Binary64.ofInt t.seconds).add ((Binary64.ofInt t.nanos).div (.ofInt Calendar.nanosInSecond))

namespace Value

def toBinary64? : Value → Option Binary64
  | .integer n => some (.ofInt n.toInt)
  | .float x | .epoch x => some x
  | .decimal d => some d.toBinary64
  | _ => none

/-- Whole floats are brought into the range of integers. -/
def toInt64? : Value → Option Int64
  | .integer n => some n
  | .float x => if x.isWhole then some (Number.saturateInt64 x.truncate) else none
  | _ => none

def text? : Value → Option String
  | .string text => some text
  | _ => none

/-- By value where the float is within the range of decimals, otherwise as floats. -/
def compareDecimalFloat (d : Decimal) (x : Binary64) : Option Ordering :=
  match Decimal.ofBinary64? x with
  | some e => some (d.compare e)
  | none => d.toBinary64.compare? x

/-- Integers and decimals compare exactly among themselves. -/
def compareNumbers : Value → Value → Option Ordering
  | .integer m, .integer n => some (Ord.compare m.toInt n.toInt)
  | .decimal d, .decimal e => some (d.compare e)
  | .integer n, .decimal e => some ((Decimal.ofInt64 n).compare e)
  | .decimal d, .integer n => some (d.compare (.ofInt64 n))
  | .decimal d, b => b.toBinary64?.bind (compareDecimalFloat d)
  | a, .decimal e => a.toBinary64?.bind fun x ↦ (compareDecimalFloat e x).map Ordering.swap
  | a, b => a.toBinary64?.bind fun x ↦ b.toBinary64?.bind x.compare?

/-- Compares values that are neither arrays nor strings to be read as another kind. -/
def compareAlike : Value → Value → Option Ordering
  | .null, .null => some .eq
  | .boolean a, .boolean b => some (Ord.compare a b)
  | .string a, .string b => some (Ord.compare a b)
  | .date a, .date b => some (a.compare b)
  | .dateTime a, .dateTime b => some (a.compare b)
  | .uuid a, .uuid b => some (a.compare b)
  | .epoch a, .dateTime b => a.compare? b.toBinary64
  | .dateTime a, .epoch b => a.toBinary64.compare? b
  | a, b => compareNumbers a b

/-- What a string means to a value that it is compared with. -/
def readLike? (text : String) : Value → Option Value
  | .string _ => some (.string text)
  | .decimal _ => Tag.decimal.read? text
  | .date _ => Tag.date.read? text
  | .dateTime _ => Tag.dateTime.read? text
  | .uuid _ => Tag.uuid.read? text
  | _ => none

def compareLeaves : Value → Value → Option Ordering
  | .string text, b => (readLike? text b).bind fun a ↦ compareAlike a b
  | a, .string text => (readLike? text a).bind fun b ↦ compareAlike a b
  | a, b => compareAlike a b

mutual

/-- The order of two values, or none where they do not compare. -/
def compare? : Value → Value → Option Ordering
  | .array xs, b =>
    match b with
    | .array ys => compareItems? xs ys
    | _ => none
  | a, b => compareLeaves a b

/-- The first items that are not equal decide; where all are, the shorter list is less. -/
def compareItems? : List Value → List Value → Option Ordering
  | [], [] => some .eq
  | [], _ :: _ => some .lt
  | _ :: _, [] => some .gt
  | x :: xs, y :: ys =>
    match compare? x y with
    | some .eq => compareItems? xs ys
    | decided => decided

end

mutual

def looseEq : Value → Value → Bool
  | .object r, b =>
    match b with
    | .object s => looseEqFields [] r s && s.all (Record.contains ·.1 r)
    | _ => false
  | .array xs, b =>
    match b with
    | .array ys => looseEqItems xs ys
    | _ => false
  | a, b => compare? a b == some .eq

def looseEqItems : List Value → List Value → Bool
  | [], [] => true
  | x :: xs, y :: ys => looseEq x y && looseEqItems xs ys
  | _, _ => false

/-- Whether every field has an equal in `s`. Fields whose name has been seen do not count. -/
def looseEqFields (seen : List String) : List (String × Value) → Record → Bool
  | [], _ => true
  | (key, value) :: rest, s =>
    (key ∈ seen || match Record.get? key s with
      | some other => looseEq value other
      | none => false) && looseEqFields (key :: seen) rest s

end

/-- Equality of values of the same kind: decimals by number, dates with a time by instant, floats by
value, so that `nan` differs from itself. -/
def identicalLeaves : Value → Value → Bool
  | .null, .null => true
  | .boolean a, .boolean b => a == b
  | .integer a, .integer b => a == b
  | .float a, .float b => a.equal b
  | .string a, .string b => a == b
  | .decimal a, .decimal b => a.equal b
  | .date a, .date b => a == b
  | .dateTime a, .dateTime b => a.equal b
  | .epoch a, .epoch b => a.equal b
  | .uuid a, .uuid b => a == b
  | _, _ => false

mutual

def identical : Value → Value → Bool
  | .object r, b =>
    match b with
    | .object s => identicalFields [] r s && s.all (Record.contains ·.1 r)
    | _ => false
  | .array xs, b =>
    match b with
    | .array ys => identicalItems xs ys
    | _ => false
  | a, b => identicalLeaves a b

def identicalItems : List Value → List Value → Bool
  | [], [] => true
  | x :: xs, y :: ys => identical x y && identicalItems xs ys
  | _, _ => false

def identicalFields (seen : List String) : List (String × Value) → Record → Bool
  | [], _ => true
  | (key, value) :: rest, s =>
    (key ∈ seen || match Record.get? key s with
      | some other => identical value other
      | none => false) && identicalFields (key :: seen) rest s

end

end Value

/-- Loose equality of records: the same names, with equal values. -/
def Record.looseEq (r s : Record) : Bool :=
  Value.looseEq (.object r) (.object s)

end ResourceQuery
