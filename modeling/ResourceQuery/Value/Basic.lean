import ResourceQuery.Calendar.DateTime
import ResourceQuery.Number.Binary64
import ResourceQuery.Number.Decimal.Basic
import ResourceQuery.Uuid

/-!
Values and records. A record is a list of fields; where a name occurs twice the first field counts,
and assigning to a name never makes it occur twice. The statements say how `insert` shows in `get?`.
-/

set_option autoImplicit false

namespace ResourceQuery

open Number (Binary64 Decimal)
open Calendar (Date DateTime)

inductive Value where
  | null
  | boolean (b : Bool)
  | integer (n : Int64)
  | float (x : Binary64)
  | string (text : String)
  | decimal (d : Decimal)
  | date (d : Date)
  | dateTime (t : DateTime)
  /-- Seconds since the start of 1970. -/
  | epoch (x : Binary64)
  | uuid (u : Uuid)
  | array (items : List Value)
  | object (fields : List (String × Value))
  deriving Inhabited

abbrev Record := List (String × Value)

namespace Record

def get? (key : String) : Record → Option Value
  | [] => none
  | (name, value) :: rest => if name = key then some value else get? key rest

def contains (key : String) (r : Record) : Bool :=
  (get? key r).isSome

/-- Replaces the value of a field, or adds the field at the end. -/
def insert (key : String) (value : Value) : Record → Record
  | [] => [(key, value)]
  | (name, old) :: rest =>
    if name = key then (name, value) :: rest else (name, old) :: insert key value rest

def ofFields (fields : List (String × Value)) : Record :=
  fields.foldl (fun r field ↦ insert field.1 field.2 r) []

@[simp]
theorem get?_insert_self (key : String) (value : Value) (r : Record) :
    get? key (insert key value r) = some value := by
  induction r with
  | nil => simp [insert, get?]
  | cons field rest ih => by_cases h : field.1 = key <;> simp [insert, get?, h, ih]

theorem get?_insert_of_ne {key other : String} (h : other ≠ key) (value : Value) (r : Record) :
    get? other (insert key value r) = get? other r := by
  induction r with
  | nil => simp [insert, get?, h.symm]
  | cons field rest ih =>
    by_cases hkey : field.1 = key
    · simp [insert, get?, hkey, h.symm]
    · by_cases hother : field.1 = other <;> simp_all [insert, get?]

theorem insert_insert (key : String) (first second : Value) (r : Record) :
    insert key second (insert key first r) = insert key second r := by
  induction r with
  | nil => simp [insert]
  | cons field rest ih => by_cases h : field.1 = key <;> simp [insert, h, ih]

theorem insert_of_get? {key : String} {value : Value} {r : Record} (h : get? key r = some value) :
    insert key value r = r := by
  induction r with
  | nil => simp [get?] at h
  | cons field rest ih =>
    obtain ⟨name, old⟩ := field
    by_cases hname : name = key
    · simp_all [insert, get?]
    · simp only [get?, hname, if_false] at h
      simp [insert, hname, ih h]

end Record

namespace Value

def typeName : Value → String
  | .null => "null"
  | .boolean _ => "boolean"
  | .integer _ => "integer"
  | .float _ => "float"
  | .string _ => "string"
  | .decimal _ => "decimal"
  | .date _ => "date"
  | .dateTime _ => "datetime"
  | .epoch _ => "epoch"
  | .uuid _ => "uuid"
  | .array _ => "array"
  | .object _ => "object"

def isNumeric : Value → Bool
  | .integer _ | .float _ | .decimal _ => true
  | _ => false

end Value

end ResourceQuery
