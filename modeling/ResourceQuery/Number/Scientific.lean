import ResourceQuery.Number.Binary64
import ResourceQuery.Text.Numeral

/-!
Decimal numerals with an optional fraction and an optional exponent, and the double-precision
number that such a numeral denotes. A numeral has a digit on at least one side of its point.
-/

set_option autoImplicit false

namespace ResourceQuery.Number

/-- The value `digits * 10 ^ exponent` with a sign of its own, so that minus zero can be told from
zero. -/
structure Scientific where
  negative : Bool
  digits : Nat
  exponent : Int

namespace Scientific

/-- Reads the part behind the mantissa: nothing, or `e` and a whole number. -/
def readExponent? : List Char → Option Int
  | [] => some 0
  | c :: rest => if c = 'e' ∨ c = 'E' then Text.readInt? rest else none

/-- Splits the digits of a mantissa at its point. -/
def splitMantissa (cs : List Char) : List Char × List Char × List Char :=
  let whole := cs.takeWhile Char.isDigit
  match cs.dropWhile Char.isDigit with
  | '.' :: rest => (whole, rest.takeWhile Char.isDigit, rest.dropWhile Char.isDigit)
  | rest => (whole, [], rest)

def read? (cs : List Char) : Option Scientific :=
  let (negative, unsigned) := Text.splitSign cs
  let (whole, fraction, rest) := splitMantissa unsigned
  if whole.isEmpty && fraction.isEmpty then none
  else
    (readExponent? rest).map fun exponent ↦
      ⟨negative, Text.ofDigits (whole ++ fraction), exponent - fraction.length⟩

end Scientific

def Binary64.read? (cs : List Char) : Option Binary64 :=
  (Scientific.read? cs).map fun s ↦ .ofScientific s.negative s.digits s.exponent

end ResourceQuery.Number
