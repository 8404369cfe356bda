import ResourceQuery.Calendar.DateTime
import ResourceQuery.Calendar.Scan

/-!
Reading of dates and of dates with a time. The strict form has fields of fixed width. The loose
forms allow shorter fields with blanks before them; one that names no offset is taken as universal
time.
-/

set_option autoImplicit false

namespace ResourceQuery.Calendar

namespace Scan

def looseDate : Scan Date := do
  let year ← year
  char '-'
  let month ← short
  char '-'
  let day ← short
  Date.make? year month day

/-- Internet time: every field at its full width and an offset with a colon, or `Z`. -/
def strictDateTime : Scan DateTime := do
  let year ← number 4 4
  char '-'
  let month ← number 2 2
  char '-'
  let day ← number 2 2
  oneOf ['t', 'T', ' ']
  let hour ← number 2 2
  char ':'
  let minute ← number 2 2
  char ':'
  let second ← number 2 2
  let nanos ← fraction
  let offset ← (do oneOf ['Z', 'z']; return 0) <|> offset (char ':')
  let date ← Date.make? year month day
  DateTime.make? date hour minute second nanos offset

/-- A date, what separates it from the time, hours and minutes, and seconds where `withSeconds`. The
offset comes last. -/
def looseDateTime (separator : Scan Unit) (withSeconds : Bool) (offset : Scan Int) :
    Scan DateTime := do
  let date ← looseDate
  separator
  let hour ← short
  char ':'
  let minute ← short
  let (second, nanos) ← if withSeconds then (do
    char ':'
    let second ← short
    return (second, ← fraction)) else pure (0, 0)
  DateTime.make? date hour minute second nanos (← offset)

end Scan

def Date.read? (cs : List Char) : Option Date :=
  Scan.looseDate.whole? cs

/-- The forms of a date with a time, in the order in which they are tried. -/
def DateTime.forms : List (Scan DateTime) :=
  let letter := Scan.char 'T'
  let written : Scan Int := do
    Scan.blanks
    Scan.offset Scan.looseSeparator
  [Scan.strictDateTime,
    Scan.looseDateTime letter true written,
    Scan.looseDateTime Scan.blanks true written,
    Scan.looseDateTime letter true (pure 0),
    Scan.looseDateTime Scan.blanks true (pure 0),
    Scan.looseDateTime letter false (pure 0),
    Scan.looseDateTime Scan.blanks false (pure 0)]

def DateTime.read? (cs : List Char) : Option DateTime :=
  DateTime.forms.findSome? (·.whole? cs)

end ResourceQuery.Calendar
