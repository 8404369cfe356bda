import ResourceQuery.Expr.Call
import ResourceQuery.Expr.Token

/-!
The canonical text of values and call trees. Every clause is an explicit call. Strings are escaped
so that no delimiter, blank or leading sign is left in them, and carry a tag where they would be
read as something else without it.
-/

set_option autoImplicit false

namespace ResourceQuery

/-- Positional from `10 ^ -4` up to `10 ^ 16`, without a sign on positive exponents; of two equally
near candidates the upper one is taken. -/
def Value.floatLayout : Number.FloatLayout where
  tieUp := true
  leastPlain := -4
  plusSign := false

namespace Printer

/-- The characters that stand for themselves in a word: visible ASCII without the delimiters and
the percent sign. -/
def isPlain (c : Char) : Bool :=
  0x20 < c.toNat && c.toNat < 0x7F && !Token.isDelimiter c && c != '%'

/-- Whether a word made of the text alone would not be read as this string. -/
def needsTag (text : String) : Bool :=
  text = "" || (Literal.tagged? text).isSome ||
    match Literal.detect text with
    | .string _ => false
    | _ => true

/-- A leading sign is escaped too, because it would be read as a direction within `sort`. -/
def escapeChars : List Char → List Char
  | c :: rest =>
    if (Direction.ofSign? c).isSome then
      Text.Percent.escape c ++ Text.Percent.encode isPlain rest
    else Text.Percent.encode isPlain (c :: rest)
  | [] => []

def tagChars (tag : Tag) (cs : List Char) : List Char :=
  tag.name.toList ++ ':' :: cs

def stringChars (text : String) : List Char :=
  if needsTag text then tagChars .string (escapeChars text.toList) else escapeChars text.toList

/-- Whole seconds below `10 ^ 15` are written without a fraction. -/
def epochChars (x : Number.Binary64) : List Char :=
  if x.isWhole && x.truncate.natAbs < Nat.pow 10 15 then Text.signedDigits x.truncate
  else x.chars Value.floatLayout

/-- Parts in parentheses with commas between them. -/
def tupleChars (parts : List (List Char)) : List Char :=
  '(' :: [','].intercalate parts ++ [')']

mutual

def valueChars : Value → List Char
  | .null => "null".toList
  | .boolean b => (if b then "true" else "false").toList
  | .integer n => Text.int64Digits n
  | .float x => x.chars Value.floatLayout
  | .string text => stringChars text
  | .decimal d => tagChars .decimal d.chars
  | .date d => tagChars .date d.chars
  | .dateTime t => tagChars .dateTime t.chars
  | .epoch x => tagChars .epoch (epochChars x)
  | .uuid u => tagChars .uuid u.chars
  | .array items => tupleChars (itemChars items)
  | .object fields => stringChars ((Value.object fields).toJson.toText .compact)

def itemChars : List Value → List (List Char)
  | [] => []
  | item :: rest => valueChars item :: itemChars rest

end

mutual

def argChars : Arg → List Char
  | .call name args => name.toList ++ tupleChars (argsChars args)
  | .value v => valueChars v
  | .sortKey direction key => direction.sign :: valueChars key

def argsChars : List Arg → List (List Char)
  | [] => []
  | arg :: rest => argChars arg :: argsChars rest

end

end Printer

def Value.toText (v : Value) : String :=
  String.ofList (Printer.valueChars v)

def Call.toText (c : Call) : String :=
  String.ofList (Printer.argChars c.toArg)

end ResourceQuery
