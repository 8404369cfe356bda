import ResourceQuery.Json.Basic
import ResourceQuery.Text.Numeral
import ResourceQuery.Text.Parsed
import ResourceQuery.Text.Percent

/-!
Reading of JSON text. The text must be one value with nothing but blanks around it, arrays and
objects may be nested 127 deep, and of fields with the same name the last one counts. A number is an
integer where it has neither fraction nor exponent and fits sixty-four bits, except that `-0` is a
float.
-/

set_option autoImplicit false

namespace ResourceQuery.Json

open Number (Binary64)
open Text (Parsed)

def isBlank (c : Char) : Bool :=
  c == ' ' || c == '\t' || c == '\n' || c == '\r'

/-- Puts digits behind those of `n` for as long as the result fits sixty-four bits; gives the
result, the count of digits taken and the rest. -/
def takeFitting (n : Nat) : List Char → Nat × Nat × List Char
  | c :: rest =>
    let next := 10 * n + Text.ofDigits [c]
    if c.isDigit && next < UInt64.size then
      let (m, taken, rest) := takeFitting next rest
      (m, taken + 1, rest)
    else (n, 0, c :: rest)
  | [] => (n, 0, [])

/-- Divides by a power of ten in steps, because no float is as large as that power. -/
def divideByTens (x : Binary64) (size : Nat) : Binary64 :=
  if x.equal (.zero false) then x
  else if size ≤ 308 then x.div (.ofScientific false 1 size)
  else divideByTens (x.div (.ofScientific false 1 308)) (size - 308)
termination_by size

/-- The float of a significand and an exponent, rounded after the conversion of the significand and
after every multiplication or division. There is none outside of the range of floats. -/
def floatOfParts? (negative : Bool) (significand : Nat) (exponent : Int) : Option Binary64 :=
  let x := Binary64.ofInt significand
  let signed (x : Binary64) := if negative then x.neg else x
  if exponent < 0 then some (signed (divideByTens x exponent.natAbs))
  else if significand = 0 then some (signed x)
  else if 308 < exponent then none
  else
    let y := x.mul (.ofScientific false 1 exponent)
    if y.isFinite then some (signed y) else none

/-- The digits of an exponent behind its mark, with a sign or none. -/
def readExponent? (cs : List Char) : Option (Int × List Char) :=
  let (negative, rest) := Text.splitSign cs
  let ds := rest.takeWhile Char.isDigit
  if ds.isEmpty then none
  else some (Text.withSign negative (Text.ofDigits ds), rest.dropWhile Char.isDigit)

def integerOrFloat (negative : Bool) (n : Nat) : Json :=
  if negative && n == 0 then .float (.zero true)
  else
    match Number.int64? (Text.withSign negative n) with
    | some z => .integer z
    | none => .float (.ofInt (Text.withSign negative n))

/-- Reads the part of a number behind its sign. Digits that no longer fit the significand are
counted where they stand before the point and left out where they stand behind it. -/
def readUnsigned? (negative : Bool) (cs : List Char) : Option (Json × List Char) := do
  let whole := cs.takeWhile Char.isDigit
  if whole.isEmpty || (whole.head? = some '0' && whole.length != 1) then none
  let (significand, taken, rest) := takeFitting 0 cs
  let dropped := whole.length - taken
  let rest := rest.dropWhile Char.isDigit
  let (significand, exponent, pointed, rest) ←
    match rest with
    | '.' :: fraction =>
      let (significand, taken, behind) := takeFitting significand fraction
      if (fraction.takeWhile Char.isDigit).isEmpty then none
      else some (significand, (dropped : Int) - taken, true, behind.dropWhile Char.isDigit)
    | rest => some (significand, (dropped : Int), false, rest)
  match rest with
  | 'e' :: behind | 'E' :: behind =>
    let (shift, rest) ← readExponent? behind
    return (.float (← floatOfParts? negative significand (exponent + shift)), rest)
  | rest =>
    if pointed || dropped != 0 then
      return (.float (← floatOfParts? negative significand exponent), rest)
    else return (integerOrFloat negative significand, rest)

def readNumber? : List Char → Option (Json × List Char)
  | '-' :: rest => readUnsigned? true rest
  | cs => readUnsigned? false cs

/-- Four hexadecimal digits. -/
def readUnit? : List Char → Option (Nat × List Char)
  | a :: b :: c :: d :: rest => do
    let ds ← [a, b, c, d].mapM Text.Percent.hexValue?
    return (ds.foldl (fun n v ↦ 16 * n + v) 0, rest)
  | _ => none

/-- The character of an escape behind `\u`. A high surrogate needs the escape of a low one behind
it, and a low surrogate stands for nothing on its own. -/
def readCodePoint? (cs : List Char) : Option (Char × List Char) := do
  let (high, rest) ← readUnit? cs
  if 0xDC00 ≤ high ∧ high < 0xE000 then none
  else if 0xD800 ≤ high ∧ high < 0xDC00 then
    match rest with
    | '\\' :: 'u' :: rest => do
      let (low, rest) ← readUnit? rest
      if 0xDC00 ≤ low ∧ low < 0xE000 then
        return (Char.ofNat (0x10000 + (high - 0xD800) * 0x400 + (low - 0xDC00)), rest)
      else none
    | _ => none
  else return (Char.ofNat high, rest)

/-- The character of an escape behind its backslash. -/
def readEscape? : List Char → Option (Char × List Char)
  | '"' :: rest => some ('"', rest)
  | '\\' :: rest => some ('\\', rest)
  | '/' :: rest => some ('/', rest)
  | 'b' :: rest => some (Char.ofNat 0x08, rest)
  | 'f' :: rest => some (Char.ofNat 0x0C, rest)
  | 'n' :: rest => some ('\n', rest)
  | 'r' :: rest => some ('\r', rest)
  | 't' :: rest => some ('\t', rest)
  | 'u' :: rest => readCodePoint? rest
  | _ => none

/-- Keeps a result whose rest is shorter than the text that it was read from. -/
def shortened? {α : Type} (cs : List Char) (result : Option (α × List Char)) :
    Option (Parsed Char α cs.length) :=
  result.bind fun (a, rest) ↦ if h : rest.length < cs.length then some ⟨a, rest, h⟩ else none

/-- Reads a string behind its opening quote. -/
def readString? (cs : List Char) : Option (Parsed Char (List Char) cs.length) :=
  match cs with
  | [] => none
  | '"' :: rest => some ⟨[], rest, Nat.lt_succ_self _⟩
  | '\\' :: rest => do
    let first ← shortened? rest (readEscape? rest)
    let more ← readString? first.rest
    return ⟨first.value :: more.value, more.rest, by
      have := first.shorter
      have := more.shorter
      simp only [List.length_cons]
      omega⟩
  | c :: rest =>
    if c.toNat < 0x20 then none
    else do
      let more ← readString? rest
      return ⟨c :: more.value, more.rest, by
        have := more.shorter
        simp only [List.length_cons]
        omega⟩
termination_by cs.length
decreasing_by
  · have := first.shorter
    simp only [List.length_cons]
    omega
  · simp

def readWord? (word : String) (value : Json) (cs : List Char) : Option (Json × List Char) :=
  (word.toList.isPrefixOf? cs).map (value, ·)

inductive Token where
  /-- One of the characters that hold arrays and objects together. -/
  | mark (c : Char)
  | scalar (value : Json)

/-- Reads the token at the front of a text that does not start with a blank. -/
def readToken? (cs : List Char) : Option (Token × List Char) :=
  match cs with
  | [] => none
  | c :: rest =>
    if c ∈ ['[', ']', '{', '}', ',', ':'] then some (.mark c, rest)
    else
      let scalar? : Option (Json × List Char) :=
        match c with
        | '"' => (readString? rest).map fun p ↦ (.string (String.ofList p.value), p.rest)
        | 'n' => readWord? "null" .null cs
        | 't' => readWord? "true" (.boolean true) cs
        | 'f' => readWord? "false" (.boolean false) cs
        | _ => readNumber? cs
      scalar?.map fun (value, rest) ↦ (.scalar value, rest)

def tokens? (cs : List Char) : Option (List Token) :=
  match cs with
  | [] => some []
  | c :: rest =>
    if isBlank c then tokens? rest
    else do
      let first ← shortened? (c :: rest) (readToken? (c :: rest))
      return first.value :: (← tokens? first.rest)
termination_by cs.length
decreasing_by
  · simp
  · exact first.shorter

/-- Drops the fields whose name occurs again behind them. -/
def lastOfEach {α : Type} : List (String × α) → List (String × α)
  | [] => []
  | field :: rest =>
    if rest.any (·.1 == field.1) then lastOfEach rest else field :: lastOfEach rest

mutual

/-- Reads a value that may hold `depth` levels of arrays and objects. -/
def readValue? (depth : Nat) (ts : List Token) : Option (Parsed Token Json ts.length) :=
  match depth, ts with
  | _, .scalar value :: rest => some ⟨value, rest, Nat.lt_succ_self _⟩
  | _ + 1, .mark '[' :: .mark ']' :: rest => some ⟨.array [], rest, by
      simp only [List.length_cons]; omega⟩
  | depth + 1, .mark '[' :: rest => do
    let items ← readItems? depth rest
    return ⟨.array items.value, items.rest, by
      have := items.shorter; simp only [List.length_cons]; omega⟩
  | _ + 1, .mark '{' :: .mark '}' :: rest => some ⟨.object [], rest, by
      simp only [List.length_cons]; omega⟩
  | depth + 1, .mark '{' :: rest => do
    let fields ← readFields? depth rest
    return ⟨.object (lastOfEach fields.value), fields.rest, by
      have := fields.shorter; simp only [List.length_cons]; omega⟩
  | _, _ => none
termination_by (ts.length, 0)

/-- Reads the items of an array with its closing bracket. -/
def readItems? (depth : Nat) (ts : List Token) : Option (Parsed Token (List Json) ts.length) := do
  let first ← readValue? depth ts
  match h : first.rest with
  | .mark ']' :: rest => return ⟨[first.value], rest, by have := first.shorter; simp_all; omega⟩
  | .mark ',' :: rest =>
    let more ← readItems? depth rest
    return ⟨first.value :: more.value, more.rest, by
      have := first.shorter; have := more.shorter; simp_all; omega⟩
  | _ => none
termination_by (ts.length, 1)
decreasing_by
  · simp [Prod.lex_def]
  · have := first.shorter
    simp_all [Prod.lex_def]
    omega

/-- Reads the fields of an object with its closing brace. -/
def readFields? (depth : Nat) (ts : List Token) :
    Option (Parsed Token (List (String × Json)) ts.length) :=
  match ts with
  | .scalar (.string key) :: .mark ':' :: behind => do
    let first ← readValue? depth behind
    match h : first.rest with
    | .mark '}' :: rest =>
      return ⟨[(key, first.value)], rest, by have := first.shorter; simp_all; omega⟩
    | .mark ',' :: rest =>
      let more ← readFields? depth rest
      return ⟨(key, first.value) :: more.value, more.rest, by
        have := first.shorter; have := more.shorter; simp_all; omega⟩
    | _ => none
  | _ => none
termination_by (ts.length, 0)
decreasing_by
  · simp only [Prod.lex_def, List.length_cons]
    omega
  · have := first.shorter
    simp_all only [Prod.lex_def, List.length_cons]
    omega

end

/-- The levels of arrays and objects that a text may have. -/
def maxDepth : Nat := 127

def read? (text : String) : Option Json := do
  let ts ← tokens? text.toList
  let value ← readValue? maxDepth ts
  if value.rest.isEmpty then return value.value else none

end ResourceQuery.Json
