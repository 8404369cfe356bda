import ResourceQuery.Text.Numeral

/-!
The parts that written dates and times are made of. Each takes what it reads off the front of a text
and leaves the rest; it fails where the text does not start with such a part.
-/

set_option autoImplicit false

namespace ResourceQuery.Calendar

abbrev Scan := StateT (List Char) Option

namespace Scan

/-- Between `least` and `most` digits, as many as there are. -/
def number (least most : Nat) : Scan Nat := fun cs ↦
  let ds := (cs.take most).takeWhile Char.isDigit
  if ds.length < least then none else some (Text.ofDigits ds, cs.drop ds.length)

def oneOf (admitted : List Char) : Scan Unit
  | c :: rest => if c ∈ admitted then some ((), rest) else none
  | [] => none

def char (c : Char) : Scan Unit :=
  oneOf [c]

def blanks : Scan Unit := fun cs ↦
  some ((), Text.trimLeft cs)

/-- A number of one digit or two, with blanks before it. -/
def short : Scan Nat := do
  blanks
  number 1 2

/-- A year of up to four digits, or of any number of digits behind a sign. -/
def year : Scan Int := do
  blanks
  let cs ← get
  match cs with
  | '-' :: rest => set rest; return -(← number 1 rest.length)
  | '+' :: rest => set rest; return ← number 1 rest.length
  | _ => return ← number 1 4

/-- The nanoseconds of a fraction, or zero where there is none. Digits beyond the ninth are
skipped. -/
def fraction : Scan Nat := do
  let cs ← get
  match cs with
  | '.' :: rest =>
    let ds := rest.takeWhile Char.isDigit
    if ds.isEmpty then failure
    set (rest.drop ds.length)
    return Text.ofDigits ((ds ++ List.replicate 9 '0').take 9)
  | _ => return 0

def minusSign : Char := Char.ofNat 0x2212

/-- The minutes of an offset: a sign, two digits of hours, a separator and two digits of minutes. -/
def offset (separator : Scan Unit) : Scan Int := do
  let cs ← get
  oneOf ['+', '-', minusSign]
  let negative := cs.head? != some '+'
  let hours ← number 2 2
  separator
  let minutes ← number 2 2
  if 60 ≤ minutes then failure
  return Text.withSign negative (60 * hours + minutes)

/-- Colons and blanks, or nothing. -/
def looseSeparator : Scan Unit := fun cs ↦
  some ((), cs.dropWhile fun c ↦ c == ':' || Text.isBlank c)

/-- Runs a reader over a whole text. -/
def whole? {α : Type} (scan : Scan α) (cs : List Char) : Option α :=
  match scan cs with
  | some (a, []) => some a
  | _ => none

end Scan

end ResourceQuery.Calendar
