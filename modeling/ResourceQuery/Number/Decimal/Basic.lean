import ResourceQuery.Number.Rounding

/-!
Decimal numbers that keep their scale: a sign, a coefficient of at most 96 bits and up to 28 places
behind the point. Comparison is by value, so `1.0` and `1.00` compare equal although they are
different decimals. Arithmetic is exact where the result fits and otherwise gives up as few places
as possible, a half going to the even neighbour.
-/

set_option autoImplicit false

namespace ResourceQuery.Number

namespace Decimal

def coefficientBound : Nat := Nat.pow 2 96

def maxScale : Nat := 28

end Decimal

structure Decimal where
  negative : Bool
  coefficient : Nat
  scale : Nat
  coefficient_lt : coefficient < Decimal.coefficientBound
  scale_le : scale ≤ Decimal.maxScale
  deriving DecidableEq

namespace Decimal

def make? (negative : Bool) (coefficient scale : Nat) : Option Decimal :=
  if h : coefficient < coefficientBound ∧ scale ≤ maxScale then
    some ⟨negative, coefficient, scale, h.1, h.2⟩
  else none

def zero : Decimal :=
  ⟨false, 0, 0, by decide, by decide⟩

instance : Inhabited Decimal := ⟨zero⟩

def ofInt64 (n : Int64) : Decimal where
  negative := n.toInt < 0
  coefficient := n.toInt.natAbs
  scale := 0
  coefficient_lt := by
    have hlow := Int64.le_toInt n
    have hhigh := Int64.toInt_lt n
    simp only [coefficientBound, Nat.pow_eq]
    omega
  scale_le := by decide

/-- The coefficient with its sign. -/
def signed (d : Decimal) : Int :=
  if d.negative then -(d.coefficient : Int) else d.coefficient

/-- The value of `d` in units of `10 ^ -maxScale`, which is whole for every decimal. -/
def numerator (d : Decimal) : Int :=
  d.signed * Nat.pow 10 (maxScale - d.scale)

def compare (a b : Decimal) : Ordering :=
  Ord.compare a.numerator b.numerator

def equal (a b : Decimal) : Bool :=
  a.numerator == b.numerator

/-- The decimal nearest to `num / den` with the most places that fit: `num / den` is tried with
`scale` places, which are worth `10 ^ -scale` each, then with fewer of them. -/
def nearest? (negative : Bool) (num den : Nat) : (scale : Nat) → Option Decimal
  | 0 => make? negative (roundHalfEven num den) 0
  | scale + 1 =>
    make? negative (roundHalfEven num den) (scale + 1) <|>
      nearest? negative num (10 * den) scale

/-- Zero is neutral and leaves the other side as it is, its scale included. The result has the
larger scale of the two sides where that fits, and there is none where its whole part is too large.
-/
def add? (a b : Decimal) : Option Decimal :=
  if a.coefficient = 0 then some b
  else if b.coefficient = 0 then some a
  else
    let scale := max a.scale b.scale
    let total := a.signed * Nat.pow 10 (scale - a.scale) + b.signed * Nat.pow 10 (scale - b.scale)
    nearest? (total < 0) total.natAbs 1 scale

/-- The most places, up to `limit`, that can be put behind a coefficient at once. -/
def room (coefficient : Nat) : (limit : Nat) → Nat
  | 0 => 0
  | limit + 1 =>
    if coefficient * Nat.pow 10 (limit + 1) < coefficientBound then limit + 1
    else room coefficient limit

theorem room_le (coefficient limit : Nat) : room coefficient limit ≤ limit := by
  induction limit with
  | zero => exact Nat.le_refl 0
  | succ limit ih =>
    rw [room]
    split
    · exact Nat.le_refl _
    · exact Nat.le_succ_of_le ih

/-- Long division: puts up to nine places at a time behind a quotient until nothing remains or no
place fits, and rounds what remains then. -/
def divideFrom? (negative : Bool) (divisor quotient remainder scale : Nat) : Option Decimal :=
  let places := room quotient (min 9 (maxScale - scale))
  if _h : remainder = 0 ∨ places = 0 then
    nearest? negative (quotient * divisor + remainder) divisor scale
  else
    let dividend := remainder * Nat.pow 10 places
    divideFrom? negative divisor (quotient * Nat.pow 10 places + dividend / divisor)
      (dividend % divisor) (scale + places)
termination_by maxScale - scale
decreasing_by
  have := room_le quotient (min 9 (maxScale - scale))
  omega

/-- Drops a block of zeros at the end of a coefficient, if it has one and the scale allows it. -/
def dropZeros (block : Nat) (parts : Nat × Nat) : Nat × Nat :=
  if block ≤ parts.2 ∧ parts.1 % Nat.pow 10 block = 0 then
    (parts.1 / Nat.pow 10 block, parts.2 - block)
  else parts

/-- Drops a block of eight zeros where the coefficient is a multiple of `2 ^ 32`. -/
def dropEight (parts : Nat × Nat) : Nat × Nat :=
  if parts.1 % UInt32.size = 0 then dropZeros 8 parts else parts

/-- Drops zeros at the end in blocks of eight, of four, of two and of one, each of the last three at
most once. -/
def trim? (d : Decimal) : Option Decimal :=
  let (coefficient, scale) :=
    dropZeros 1 <| dropZeros 2 <| dropZeros 4 <|
      dropEight <| dropEight <| dropEight (d.coefficient, d.scale)
  make? d.negative coefficient scale

/-- A quotient that needs no further places keeps the scale; another one is trimmed after the long
division. -/
def divNat? (d : Decimal) (n : Nat) : Option Decimal :=
  if d.coefficient = 0 then some zero
  else if d.coefficient % n = 0 then make? d.negative (d.coefficient / n) d.scale
  else
    (divideFrom? d.negative n (d.coefficient / n) (d.coefficient % n) d.scale).bind trim?

end Decimal

end ResourceQuery.Number
