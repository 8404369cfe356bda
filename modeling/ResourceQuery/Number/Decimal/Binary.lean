import ResourceQuery.Number.Decimal.Basic
import ResourceQuery.Number.Binary64

/-!
Decimals as double-precision numbers and back. A double `m * 2 ^ e` becomes a decimal by trading
powers of two for powers of five and ten within 96 bits; a bit or a digit is given up only where the
exact value does not fit, and the result keeps no more digits than 52 bits hold.
-/

set_option autoImplicit false

namespace ResourceQuery.Number.Decimal

/-- The whole part and the fraction are converted apart, and their sum is rounded to the places of
the decimal. Zero keeps its sign only where it has places. -/
def toBinary64 (d : Decimal) : Binary64 :=
  let power := Nat.pow 10 d.scale
  let whole := Binary64.ofInt (d.coefficient / power)
  let fraction := (Binary64.ofInt (d.coefficient % power)).div (.ofInt power)
  let size :=
    if d.coefficient % power = 0 then whole
    else (((whole.add fraction).mul (.ofInt power)).round).div (.ofInt power)
  if d.negative && (d.coefficient != 0 || d.scale != 0) then size.neg else size

/-- Takes the power of two out of `bits * 2 ^ -count`: the result `(b, s)` stands for
`b * 10 ^ -s`. -/
def absorbFives : (count bits scale : Nat) → Nat × Nat
  | 0, bits, scale => (bits, scale)
  | count + 1, bits, scale =>
    if bits % 2 = 0 then absorbFives count (bits / 2) (scale - 1)
    else if bits * 5 < coefficientBound then absorbFives count (bits * 5) scale
    else absorbFives count (bits / 2) (scale - 1)

/-- Takes the power of two out of `bits * 2 ^ count`: the result `(b, t)` stands for `b * 10 ^ t`.
-/
def absorbTwos : (count bits tens : Nat) → Nat × Nat
  | 0, bits, tens => (bits, tens)
  | count + 1, bits, tens =>
    if bits < coefficientBound / 2 then absorbTwos count (bits * 2) (tens - 1)
    else absorbTwos count (bits / 5) tens

def timesTen? : (count bits : Nat) → Option Nat
  | 0, bits => some bits
  | count + 1, bits => if bits * 10 < coefficientBound then timesTen? count (bits * 10) else none

/-- Drops places, each rounded half up, while there are too many of them. -/
def cutScale : (scale bits : Nat) → Nat × Nat
  | 0, bits => (bits, 0)
  | scale + 1, bits =>
    if scale + 1 ≤ maxScale then (bits, scale + 1)
    else if bits / 10 = 0 then (0, 0)
    else cutScale scale (roundHalfUp bits 10)

/-- Drops places, each rounded half up, until the digits fit 52 bits. -/
def cutDigits : (scale bits : Nat) → Nat × Nat
  | 0, bits => (bits, 0)
  | scale + 1, bits =>
    if bits < Nat.pow 2 52 then (bits, scale + 1) else cutDigits scale (roundHalfUp bits 10)

/-- Drops zeros at the end of `bits` for as long as there are places to drop. -/
def stripZeros : (scale bits : Nat) → Nat × Nat
  | 0, bits => (bits, 0)
  | scale + 1, bits =>
    if bits % 10 = 0 then stripZeros scale (bits / 10) else (bits, scale + 1)

/-- A count of steps as `m * 2 ^ e` with a mantissa `m` of at most 53 bits. -/
def mantissa (steps : Nat) : Nat × Int :=
  let shift := steps.log2 - 52
  (steps / Nat.pow 2 shift, shift - 1074)

def ofSteps? (negative : Bool) (steps : Nat) : Option Decimal :=
  let (bits, exponent) := mantissa steps
  if exponent < 0 then
    let (bits, scale) := absorbFives exponent.natAbs bits exponent.natAbs
    let (bits, scale) := cutScale scale bits
    let (bits, scale) := cutDigits scale bits
    let (bits, scale) := stripZeros scale bits
    make? (negative && bits != 0) bits scale
  else
    let (bits, tens) := absorbTwos exponent.natAbs bits exponent.natAbs
    (timesTen? tens bits).bind fun bits ↦ make? (negative && bits != 0) bits 0

def ofBinary64? : Binary64 → Option Decimal
  | .finite negative steps _ =>
    if steps = 0 then some { zero with negative } else ofSteps? negative steps
  | _ => none

end ResourceQuery.Number.Decimal
