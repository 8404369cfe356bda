import ResourceQuery.Calendar.Date

/-!
Dates with a time of day and the offset of the local clock from universal time. Two of them are
compared by the instant that they name, so a different offset alone does not tell them apart. A leap
second is the last second of its minute prolonged: its nanoseconds go on from `10 ^ 9`.
-/

set_option autoImplicit false

namespace ResourceQuery.Calendar

def nanosInSecond : Nat := 1000000000

def secondsInDay : Nat := 86400

def firstDay : Int := Date.dayNumber firstYear 1 1

def lastDay : Int := Date.dayNumber lastYear 12 31

structure DateTime where
  date : Date
  second : Nat
  nanos : Nat
  /-- Minutes that the local clock is ahead of universal time. -/
  offset : Int
  second_lt : second < secondsInDay
  nanos_lt : nanos < 2 * nanosInSecond
  offset_mem : -1440 < offset ∧ offset < 1440
  deriving DecidableEq

namespace DateTime

/-- Seconds of universal time since the start of 1970. -/
def seconds (t : DateTime) : Int :=
  t.date.number * secondsInDay + t.second - t.offset * 60

def compare (a b : DateTime) : Ordering :=
  (Ord.compare a.seconds b.seconds).then (Ord.compare a.nanos b.nanos)

def equal (a b : DateTime) : Bool :=
  a.compare b == .eq

/-- A clock shows the seconds 0 to 59, or 60 within a leap second. The date must be one of the
calendar in universal time too. -/
def make? (date : Date) (hour minute second nanos : Nat) (offset : Int) : Option DateTime :=
  if hour < 24 ∧ minute < 60 ∧ second ≤ 60 ∧ nanos < nanosInSecond then
    let leap := second = 60
    let secondOfDay := hour * 3600 + minute * 60 + (if leap then 59 else second)
    let nanos := if leap then nanos + nanosInSecond else nanos
    if h : secondOfDay < secondsInDay ∧ nanos < 2 * nanosInSecond ∧
        -1440 < offset ∧ offset < 1440 then
      let t : DateTime := ⟨date, secondOfDay, nanos, offset, h.1, h.2.1, h.2.2⟩
      let day := t.seconds / secondsInDay
      if firstDay ≤ day ∧ day ≤ lastDay then some t else none
    else none
  else none

/-- No fraction, or three, six or nine digits, whichever is the first to show all of it. -/
def fractionChars (nanos : Nat) : List Char :=
  if nanos = 0 then []
  else if nanos % 1000000 = 0 then '.' :: Text.paddedDigits 3 (nanos / 1000000)
  else if nanos % 1000 = 0 then '.' :: Text.paddedDigits 6 (nanos / 1000)
  else '.' :: Text.paddedDigits 9 nanos

def offsetChars (offset : Int) : List Char :=
  if offset = 0 then ['Z']
  else
    (if offset < 0 then '-' else '+') :: Text.paddedDigits 2 (offset.natAbs / 60) ++
      ':' :: Text.paddedDigits 2 (offset.natAbs % 60)

def chars (t : DateTime) : List Char :=
  let leap := nanosInSecond ≤ t.nanos
  let second := t.second % 60 + (if leap then 1 else 0)
  let nanos := if leap then t.nanos - nanosInSecond else t.nanos
  t.date.chars ++ 'T' :: Text.paddedDigits 2 (t.second / 3600) ++
    ':' :: Text.paddedDigits 2 (t.second / 60 % 60) ++ ':' :: Text.paddedDigits 2 second ++
    fractionChars nanos ++ offsetChars t.offset

end DateTime

end ResourceQuery.Calendar
