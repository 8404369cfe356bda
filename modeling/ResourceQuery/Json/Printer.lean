import ResourceQuery.Json.Basic
import ResourceQuery.Number.Shortest

/-!
JSON as text, on one line or indented. The fields of an object come in the order of their names.
-/

set_option autoImplicit false

namespace ResourceQuery.Json

/-- Positional from `10 ^ -5` up to `10 ^ 16`, with a sign on every exponent otherwise; of two
equally near candidates the even one is taken. -/
def floatLayout : Number.FloatLayout where
  tieUp := false
  leastPlain := -5
  plusSign := true

/-- JSON has no infinite numbers, and `nan` is not one of its numbers either. -/
def floatText (x : Number.Binary64) : String :=
  if x.isFinite then String.ofList (x.chars floatLayout) else "null"

def escapeChar (c : Char) : List Char :=
  match c with
  | '"' => ['\\', '"']
  | '\\' => ['\\', '\\']
  | '\n' => ['\\', 'n']
  | '\r' => ['\\', 'r']
  | '\t' => ['\\', 't']
  | _ =>
    if c.toNat = 0x08 then ['\\', 'b']
    else if c.toNat = 0x0C then ['\\', 'f']
    else if c.toNat < 0x20 then '\\' :: 'u' :: (Nat.toDigits 16 c.toNat).leftpad 4 '0'
    else [c]

def quote (text : String) : String :=
  String.ofList ('"' :: text.toList.flatMap escapeChar ++ ['"'])

inductive Layout where
  | compact
  | indented
  deriving DecidableEq

namespace Layout

def lineBreak (depth : Nat) : Layout → String
  | .compact => ""
  | .indented => String.ofList ('\n' :: List.replicate (2 * depth) ' ')

def colon : Layout → String
  | .compact => ":"
  | .indented => ": "

/-- Parts between an opening and a closing bracket. Nothing stands between the brackets where there
are no parts. -/
def enclose (layout : Layout) (depth : Nat) (opening closing : String) (parts : List String) :
    String :=
  if parts.isEmpty then opening ++ closing
  else
    opening ++ ",".intercalate (parts.map (layout.lineBreak (depth + 1) ++ ·)) ++
      layout.lineBreak depth ++ closing

end Layout

mutual

def text (layout : Layout) (depth : Nat) : Json → String
  | .null => "null"
  | .boolean b => if b then "true" else "false"
  | .integer n => String.ofList (Text.int64Digits n)
  | .float x => floatText x
  | .string s => quote s
  | .array items => layout.enclose depth "[" "]" (itemTexts layout (depth + 1) items)
  | .object fields =>
    let parts := fieldTexts layout (depth + 1) fields
    let sorted := parts.mergeSort fun a b ↦ a.1 ≤ b.1
    layout.enclose depth "\x7b" "\x7d"
      (sorted.map fun part ↦ quote part.1 ++ layout.colon ++ part.2)

def itemTexts (layout : Layout) (depth : Nat) : List Json → List String
  | [] => []
  | item :: rest => text layout depth item :: itemTexts layout depth rest

def fieldTexts (layout : Layout) (depth : Nat) : List (String × Json) → List (String × String)
  | [] => []
  | (key, value) :: rest => (key, text layout depth value) :: fieldTexts layout depth rest

end

def toText (layout : Layout) (json : Json) : String :=
  text layout 0 json

end ResourceQuery.Json
