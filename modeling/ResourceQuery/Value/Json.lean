import ResourceQuery.Json.Printer
import ResourceQuery.Number.Decimal.Text
import ResourceQuery.Value.Basic

/-!
Values as JSON and back. JSON has only some of the kinds of values: decimals, dates and identifiers
become strings, which keep their exact text, and an epoch becomes a float.
-/

set_option autoImplicit false

namespace ResourceQuery.Value

mutual

def ofJson : Json → Value
  | .null => .null
  | .boolean b => .boolean b
  | .integer n => .integer n
  | .float x => .float x
  | .string text => .string text
  | .array items => .array (ofJsonItems items)
  | .object fields => .object (ofJsonFields fields)

def ofJsonItems : List Json → List Value
  | [] => []
  | item :: rest => ofJson item :: ofJsonItems rest

def ofJsonFields : List (String × Json) → Record
  | [] => []
  | (key, value) :: rest => (key, ofJson value) :: ofJsonFields rest

end

/-- Floats that are not finite have no JSON number and become null. -/
def jsonOfFloat (x : Number.Binary64) : Json :=
  if x.isFinite then .float x else .null

mutual

def toJson : Value → Json
  | .null => .null
  | .boolean b => .boolean b
  | .integer n => .integer n
  | .float x | .epoch x => jsonOfFloat x
  | .string text => .string text
  | .decimal d => .string (String.ofList d.chars)
  | .date d => .string (String.ofList d.chars)
  | .dateTime t => .string (String.ofList t.chars)
  | .uuid u => .string (String.ofList u.chars)
  | .array items => .array (toJsonItems items)
  | .object fields => .object (toJsonFields fields)

def toJsonItems : List Value → List Json
  | [] => []
  | item :: rest => toJson item :: toJsonItems rest

def toJsonFields : List (String × Value) → List (String × Json)
  | [] => []
  | (key, value) :: rest => (key, toJson value) :: toJsonFields rest

end

end ResourceQuery.Value
