import ResourceQuery.Calendar.Reader
import ResourceQuery.Number.Decimal.Text
import ResourceQuery.Number.Scientific
import ResourceQuery.Text.Percent
import ResourceQuery.Value.Basic

/-!
Literals: words of a query as values. A word is percent-decoded first. Where it starts with the name
of a tag and a colon, the tag says how the rest is read; otherwise the value is detected from the
text, which finds booleans, null, integers and floats and takes all else as a string.
-/

set_option autoImplicit false

namespace ResourceQuery

open Number (Binary64 Decimal)
open Calendar (Date DateTime)

inductive Tag where
  | string
  | number
  | boolean
  | null
  | epoch
  | date
  | dateTime
  | uuid
  | decimal
  deriving DecidableEq

inductive LiteralError where
  | conversion (tag : Tag) (text : String)
  | encoding (raw : String)
  deriving DecidableEq

namespace Literal

def boolean? (text : String) : Option Value :=
  if text = "true" then some (.boolean true)
  else if text = "false" then some (.boolean false)
  else none

def null? (text : String) : Option Value :=
  if text = "null" then some .null else none

def integer? (text : String) : Option Value :=
  (Text.readInt64? text.toList).map .integer

def float? (text : String) : Option Value :=
  (Binary64.read? text.toList).map .float

/-- An integer that is out of range is a float. -/
def detect (text : String) : Value :=
  (boolean? text <|> null? text <|> integer? text <|> float? text).getD (.string text)

end Literal

namespace Tag

def all : List Tag :=
  [.string, .number, .boolean, .null, .epoch, .date, .dateTime, .uuid, .decimal]

def name : Tag → String
  | .string => "string"
  | .number => "number"
  | .boolean => "boolean"
  | .null => "null"
  | .epoch => "epoch"
  | .date => "date"
  | .dateTime => "datetime"
  | .uuid => "uuid"
  | .decimal => "decimal"

def ofName? (text : String) : Option Tag :=
  all.find? (·.name == text)

def read? (text : String) : Tag → Option Value
  | .string => some (.string text)
  | .number => Literal.integer? text <|> Literal.float? text
  | .boolean => Literal.boolean? text
  | .null => if text = "" then some .null else Literal.null? text
  | .epoch => (Binary64.read? text.toList).map .epoch
  | .date => (Date.read? text.toList).map .date
  | .dateTime => (DateTime.read? text.toList).map .dateTime
  | .uuid => (Uuid.read? text.toList).map .uuid
  | .decimal => (Decimal.read? text.toList).map .decimal

def resolve (tag : Tag) (text : String) : Except LiteralError Value :=
  match tag.read? text with
  | some value => .ok value
  | none => .error (.conversion tag text)

end Tag

namespace LiteralError

def message : LiteralError → String
  | .conversion tag text => "cannot convert '" ++ text ++ "' to " ++ tag.name
  | .encoding raw => "invalid percent-encoding in '" ++ raw ++ "'"

end LiteralError

namespace Literal

def decode (raw : String) : Except LiteralError String :=
  match Text.Percent.decode? raw.toList with
  | some cs => .ok (String.ofList cs)
  | none => .error (.encoding raw)

/-- The parts of a text before and behind its first colon. -/
def splitColon? (text : String) : Option (String × String) :=
  let cs := text.toList
  match cs.dropWhile (· != ':') with
  | [] => none
  | _ :: rest => some (String.ofList (cs.takeWhile (· != ':')), String.ofList rest)

/-- The tag that a text names before its first colon, with the text behind the colon. -/
def tagged? (text : String) : Option (Tag × String) :=
  (splitColon? text).bind fun (name, rest) ↦ (Tag.ofName? name).map (·, rest)

def resolve (raw : String) : Except LiteralError Value := do
  let text ← decode raw
  match tagged? text with
  | some (tag, rest) => tag.resolve rest
  | none => return detect text

end Literal

end ResourceQuery
