import ResourceQuery.Number.Integer
import ResourceQuery.Text.Blank

/-!
Decimal numerals over ASCII digits: the digits of a number, padded where a width is asked for, and
the number that a run of digits stands for.
-/

set_option autoImplicit false

namespace ResourceQuery.Text

def digits (n : Nat) : List Char :=
  Nat.toDigits 10 n

/-- The digits of `n` with zeros in front up to `width` characters. -/
def paddedDigits (width n : Nat) : List Char :=
  (digits n).leftpad width '0'

def ofDigits (cs : List Char) : Nat :=
  Nat.ofDigitChars 10 cs 0

theorem ofDigits_digits (n : Nat) : ofDigits (digits n) = n :=
  Nat.ofDigitChars_toDigits (by decide) (by decide)

theorem isDigit_of_mem_digits {n : Nat} {c : Char} (h : c ∈ digits n) : c.isDigit = true :=
  Nat.isDigit_of_mem_toDigits (by decide) (by decide) h

/-- A minus sign, where the number is negative, and the digits of its size. -/
def signedDigits (z : Int) : List Char :=
  if z < 0 then '-' :: digits z.natAbs else digits z.natAbs

/-- Takes a sign off the front of a text. The flag tells whether it was a minus. -/
def splitSign : List Char → Bool × List Char
  | '+' :: rest => (false, rest)
  | '-' :: rest => (true, rest)
  | cs => (false, cs)

def withSign (negative : Bool) (n : Nat) : Int :=
  if negative then -(n : Int) else n

/-- Reads an optional sign and a nonempty run of digits that make up the whole text. -/
def readInt? (cs : List Char) : Option Int :=
  let (negative, ds) := splitSign cs
  if ds.isEmpty || !ds.all Char.isDigit then none else some (withSign negative (ofDigits ds))

def readInt64? (cs : List Char) : Option Int64 :=
  (readInt? cs).bind Number.int64?

def int64Digits (n : Int64) : List Char :=
  signedDigits n.toInt

end ResourceQuery.Text
