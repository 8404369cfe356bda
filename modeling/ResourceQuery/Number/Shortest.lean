import ResourceQuery.Number.Binary64
import ResourceQuery.Text.Numeral

/-!
The shortest decimal text of a double-precision number: the fewest significant digits that read
back as the same number and, among those, the nearest. A grid of one more digit is tried only where
neither neighbour on the coarser grid reads back, which suffices because every other point of a grid
lies farther away than one of the two neighbours.
-/

set_option autoImplicit false

namespace ResourceQuery.Number

/-- How digits are laid out as text. -/
structure FloatLayout where
  /-- Whether the upper of two equally near candidates is taken; otherwise it is the even one. -/
  tieUp : Bool
  /-- The power of ten from which on a number is written without an exponent, up to `10 ^ 16`. -/
  leastPlain : Int
  /-- Whether an exponent that is not negative has a plus sign. -/
  plusSign : Bool

namespace Binary64

/-- The number of digits before the point of `steps` steps; it is not positive below one. -/
def pointPosition (steps : Nat) : Int :=
  (Text.digits (steps * Nat.pow 10 330 / unit)).length - 330

/-- A count of steps over the power of ten of a grid, as numerator and denominator. -/
def onGrid (steps : Nat) (exponent : Int) : Nat × Nat :=
  if 0 ≤ exponent then (steps, unit * Nat.pow 10 exponent.toNat)
  else (steps * Nat.pow 10 exponent.natAbs, unit)

def readsBack (steps digits : Nat) (exponent : Int) : Bool :=
  match ofScientific false digits exponent with
  | .finite _ m _ => m == steps
  | _ => false

/-- The neighbour of a number on a grid that reads back as the number, if there is one. -/
def neighbour? (tieUp : Bool) (steps : Nat) (exponent : Int) : Option Nat :=
  let (num, den) := onGrid steps exponent
  let low := num / den
  let double := 2 * (num % den)
  match readsBack steps low exponent, readsBack steps (low + 1) exponent with
  | true, true =>
    if double < den ∨ (double = den ∧ !tieUp ∧ low % 2 = 0) then some low else some (low + 1)
  | true, false => some low
  | false, true => some (low + 1)
  | false, false => none

/-- The shortest digits of a positive number and the exponent of the last of them. The exact
expansion stands in where seventeen digits do not suffice. -/
def shortestDigits (tieUp : Bool) (steps : Nat) : Nat × Int :=
  let point := pointPosition steps
  let found := (List.range 17).findSome? fun n : Nat ↦
    let exponent := point - (n + 1)
    (neighbour? tieUp steps exponent).map (·, exponent)
  found.getD (steps * Nat.pow 5 1074, -1074)

/-- Digits with a point behind the first `point` of them, and at least one on either side. -/
def positional (ds : List Char) (point : Int) : List Char :=
  if point ≤ 0 then '0' :: '.' :: (List.replicate point.natAbs '0' ++ ds)
  else
    let whole := point.toNat
    if ds.length ≤ whole then ds ++ List.replicate (whole - ds.length) '0' ++ ['.', '0']
    else ds.take whole ++ '.' :: ds.drop whole

def exponential (plusSign : Bool) (ds : List Char) (exponent : Int) : List Char :=
  let fraction := ds.drop 1
  ds.take 1 ++ (if fraction.isEmpty then [] else '.' :: fraction) ++ 'e' ::
    ((if plusSign && 0 ≤ exponent then ['+'] else []) ++ Text.signedDigits exponent)

def magnitudeChars (layout : FloatLayout) (steps : Nat) : List Char :=
  if steps = 0 then ['0', '.', '0']
  else
    let (n, last) := shortestDigits layout.tieUp steps
    let all := Text.digits n
    let ds := (all.reverse.dropWhile (· == '0')).reverse
    let leading := last + all.length - 1
    if layout.leastPlain ≤ leading ∧ leading < 16 then positional ds (leading + 1)
    else exponential layout.plusSign ds leading

def chars (layout : FloatLayout) : Binary64 → List Char
  | .nan => "NaN".toList
  | .infinite negative => (if negative then ['-'] else []) ++ "inf".toList
  | .finite negative steps _ => (if negative then ['-'] else []) ++ magnitudeChars layout steps

end Binary64

end ResourceQuery.Number
