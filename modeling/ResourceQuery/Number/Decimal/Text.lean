import ResourceQuery.Number.Decimal.Basic
import ResourceQuery.Text.Numeral

/-!
The text of decimal numbers. Reading keeps the places that are written, rounds behind the last one
that fits, and knows a form with an exponent. Writing is positional and shows every place.
-/

set_option autoImplicit false

namespace ResourceQuery.Number.Decimal

def chars (d : Decimal) : List Char :=
  let ds := Text.paddedDigits (d.scale + 1) d.coefficient
  let whole := ds.length - d.scale
  (if d.negative then ['-'] else []) ++ ds.take whole ++
    (if d.scale = 0 then [] else '.' :: ds.drop whole)

/-- A decimal whose sign is dropped where its coefficient is zero. -/
def ofParts? (negative : Bool) (coefficient scale : Nat) : Option Decimal :=
  make? (negative && coefficient != 0) coefficient scale

/-- What has been read of a decimal so far. -/
structure Progress where
  coefficient : Nat := 0
  scale : Nat := 0
  /-- Whether the point has been read. -/
  pointed : Bool := false
  /-- Whether a digit has been read. -/
  started : Bool := false

/-- Rounds by the first digit that no longer fits; a half goes up. Where the coefficient has no room
for that, the last place is given up. -/
def roundBy? (negative : Bool) (p : Progress) (digit : Nat) : Option Decimal :=
  if digit < 5 then ofParts? negative p.coefficient p.scale
  else if p.coefficient + 1 < coefficientBound then
    ofParts? negative (p.coefficient + 1) p.scale
  else if p.scale = 0 then none
  else ofParts? negative ((p.coefficient + 5) / 10) (p.scale - 1)

/-- Digits and underscores, which is all that may stand behind the digit that rounds. -/
def isTail (cs : List Char) : Bool :=
  cs.all fun c ↦ c.isDigit || c == '_'

/-- Whether all digits but the last one were read within 64 bits, a small margin kept free. -/
def Progress.isShort (p : Progress) : Bool :=
  p.coefficient / 10 < UInt64.size / 10 - 255

/-- Reads digits with at most one point among them; underscores behind the first digit are skipped.
Of the digits behind the point that no longer fit only the first one counts. An underscore in its
place is skipped too, except that behind a short coefficient it counts as a zero. -/
def readUnsigned? (negative : Bool) (p : Progress) : List Char → Option Decimal
  | [] => if p.started then ofParts? negative p.coefficient p.scale else none
  | c :: rest =>
    if c.isDigit then
      let digit := Text.ofDigits [c]
      let coefficient := 10 * p.coefficient + digit
      let scale := if p.pointed then p.scale + 1 else 0
      if coefficient < coefficientBound ∧ scale ≤ maxScale then
        readUnsigned? negative ⟨coefficient, scale, p.pointed, true⟩ rest
      else if p.pointed ∧ isTail rest then roundBy? negative p digit
      else none
    else if c = '.' ∧ !p.pointed then readUnsigned? negative { p with pointed := true } rest
    else if c = '_' ∧ p.started then
      if p.scale < maxScale || !p.isShort then readUnsigned? negative p rest
      else if isTail rest then roundBy? negative p 0
      else none
    else none

def readPlain? (cs : List Char) : Option Decimal :=
  let (negative, rest) := Text.splitSign cs
  readUnsigned? negative {} rest

def isExponentMark (c : Char) : Bool :=
  c == 'e' || c == 'E'

/-- The size of an exponent: digits, with at most a plus sign before them. -/
def readExponentSize? (cs : List Char) : Option Nat :=
  let ds := if cs.head? = some '+' then cs.drop 1 else cs
  if ds.isEmpty || !ds.all Char.isDigit then none else some (Text.ofDigits ds)

/-- Divides by a power of ten that has no more places than a decimal can have. Places beyond the
last one are rounded, a half away from zero, and the sign stays even where nothing else is left. -/
def shiftDown? (d : Decimal) (size : Nat) : Option Decimal :=
  if maxScale < size then none
  else
    let excess := d.scale + size - maxScale
    make? d.negative (roundHalfUp d.coefficient (Nat.pow 10 excess)) (d.scale + size - excess)

/-- Multiplies by a power of ten. The coefficient grows only where the exponent is
beyond the scale. -/
def shiftUp? (d : Decimal) (size : Nat) : Option Decimal :=
  if size ≤ d.scale then make? d.negative d.coefficient (d.scale - size)
  else if maxScale < size then none
  else make? d.negative (d.coefficient * Nat.pow 10 (size - d.scale)) 0

def readScientific? (cs : List Char) : Option Decimal :=
  match cs.dropWhile (!isExponentMark ·) with
  | [] => none
  | _ :: exponent => do
    let base ← readPlain? (cs.takeWhile (!isExponentMark ·))
    let down := exponent.head? = some '-'
    let size ← readExponentSize? (if down then exponent.drop 1 else exponent)
    if down then base.shiftDown? size else base.shiftUp? size

/-- No text has both forms, because the plain one knows no mark of an exponent. -/
def read? (cs : List Char) : Option Decimal :=
  readPlain? cs <|> readScientific? cs

end ResourceQuery.Number.Decimal
