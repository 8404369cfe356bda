import ResourceQuery.Proofs.Calendar.Scan

/-!
The texts of dates and times read back. A date is read back from its text whatever its year is. A
time is too, unless it stands in universal time and its year needs a sign: the strict form reads no
sign, and the loose forms know no letter for universal time.
-/

set_option autoImplicit false

namespace ResourceQuery.Calendar

open Text (paddedDigits)
open Scan

theorem Date.make?_self (d : Date) : Date.make? d.year d.month d.day = some d := by
  rw [Date.make?, dif_pos ⟨d.year_mem, d.month_mem, d.day_mem⟩]

theorem daysInMonth_le (year : Int) (month : Nat) : daysInMonth year month ≤ 31 := by
  unfold daysInMonth
  split
  · split <;> omega
  · split <;> omega

namespace Scan

theorem looseDate_chars (d : Date) (rest : List Char) :
    looseDate (d.chars ++ rest) = some (d, rest) := by
  have hmonth : d.month < 100 := by
    have := d.month_mem
    omega
  have hday : d.day < 100 := by
    have := d.day_mem
    have := daysInMonth_le d.year d.month
    omega
  have hdash : ∀ behind : List Char, ∀ c ∈ ('-' :: behind).head?, c.isDigit = false := by
    rintro behind _ ⟨⟩
    decide
  rw [Date.chars]
  simp only [List.append_assoc, List.cons_append]
  rw [looseDate, bind_of_some (year_yearChars d.year (hdash _)), bind_of_some (char_cons '-'),
    bind_of_some (short_paddedDigits hmonth), bind_of_some (char_cons '-'),
    bind_of_some (short_paddedDigits hday)]
  exact lift_of_some d.make?_self rest

theorem head_offsetChars {z : Int} {c : Char} (h : c ∈ (DateTime.offsetChars z).head?) :
    c.isDigit = false ∧ c ≠ '.' ∧ Text.isBlank c = false := by
  unfold DateTime.offsetChars at h
  split at h
  · obtain rfl := Option.some.inj h
    decide
  · rw [List.cons_append] at h
    obtain rfl := Option.some.inj h
    split <;> decide

theorem offset_of_ne_zero {separator : Scan Unit} {z : Int} (hzero : z ≠ 0)
    (hbound : -1440 < z ∧ z < 1440)
    (hseparator : ∀ minutes, separator (':' :: (paddedDigits 2 minutes ++ [])) =
      some ((), paddedDigits 2 minutes ++ [])) :
    offset separator (DateTime.offsetChars z) = some (z, []) := by
  have hread := offset_offsetChars hzero hbound hseparator
  rwa [List.append_nil] at hread

/-- A letter stands for no offset, unless a sign and digits follow. -/
theorem letter_or_offset {z : Int} (hbound : -1440 < z ∧ z < 1440) :
    ((do oneOf ['Z', 'z']; return 0) <|> offset (char ':') : Scan Int) (DateTime.offsetChars z) =
      some (z, []) := by
  by_cases hzero : z = 0
  · subst hzero
    exact orElse_of_some rfl _
  · rw [orElse_of_none, offset_of_ne_zero hzero hbound fun _ ↦ char_cons ':']
    refine bind_of_none (oneOf_of_not_mem ?_) _
    rw [DateTime.offsetChars, if_neg hzero, List.cons_append]
    rintro _ ⟨⟩
    split <;> decide

end Scan

/-- A date is read back from its text. -/
theorem Date.read?_chars (d : Date) : Date.read? d.chars = some d := by
  have hread := looseDate_chars d []
  rw [List.append_nil] at hread
  exact whole?_of_some hread

namespace DateTime

/-- What the clock shows of the seconds of a minute, up to 60. -/
def clockSecond (t : DateTime) : Nat :=
  t.second % 60 + if nanosInSecond ≤ t.nanos then 1 else 0

def clockNanos (t : DateTime) : Nat :=
  if nanosInSecond ≤ t.nanos then t.nanos - nanosInSecond else t.nanos

/-- A leap second ends its minute, and the date is one of the calendar in universal time too. -/
structure Regular (t : DateTime) : Prop where
  leap : nanosInSecond ≤ t.nanos → t.second % 60 = 59
  universal : firstDay ≤ t.seconds / secondsInDay ∧ t.seconds / secondsInDay ≤ lastDay

theorem equal_self (t : DateTime) : t.equal t = true := by
  have hseconds : Ord.compare t.seconds t.seconds = .eq := Std.ReflCmp.compare_self
  have hnanos : Ord.compare t.nanos t.nanos = .eq := Std.ReflCmp.compare_self
  rw [equal, compare, hseconds, hnanos]
  rfl

theorem make?_of_fields {t : DateTime} {hour minute second nanos : Nat}
    (hclock : hour < 24 ∧ minute < 60 ∧ second ≤ 60 ∧ nanos < nanosInSecond)
    (hsecond : hour * 3600 + minute * 60 + (if second = 60 then 59 else second) = t.second)
    (hnanos : (if second = 60 then nanos + nanosInSecond else nanos) = t.nanos)
    (huniversal : firstDay ≤ t.seconds / secondsInDay ∧ t.seconds / secondsInDay ≤ lastDay) :
    make? t.date hour minute second nanos t.offset = some t := by
  rw [make?, if_pos hclock]
  dsimp only
  simp only [hsecond, hnanos]
  rw [dif_pos ⟨t.second_lt, t.nanos_lt, t.offset_mem⟩, if_pos huniversal]

/-- The clock of a regular time shows that time. -/
theorem make?_clock {t : DateTime} (h : t.Regular) :
    make? t.date (t.second / 3600) (t.second / 60 % 60) t.clockSecond t.clockNanos t.offset =
      some t := by
  have hsecond := t.second_lt
  have hnanos := t.nanos_lt
  have hleap := h.leap
  have hday : secondsInDay = 86400 := rfl
  have hsplit : t.second / 3600 * 3600 + t.second / 60 % 60 * 60 + t.second % 60 = t.second := by
    omega
  unfold clockSecond clockNanos
  by_cases hcase : nanosInSecond ≤ t.nanos
  · rw [if_pos hcase, if_pos hcase]
    have hlast := hleap hcase
    refine make?_of_fields ⟨by omega, by omega, by omega, by omega⟩ ?_ ?_ h.universal
    · rw [if_pos (by omega)]
      omega
    · rw [if_pos (by omega)]
      omega
  · rw [if_neg hcase, if_neg hcase]
    refine make?_of_fields ⟨by omega, by omega, by omega, by omega⟩ ?_ ?_ h.universal
    · rw [if_neg (by omega)]
      omega
    · rw [if_neg (by omega)]

theorem regular_of_make? {date : Date} {hour minute second nanos : Nat} {offset : Int}
    {t : DateTime} (h : make? date hour minute second nanos offset = some t) : t.Regular := by
  unfold make? at h
  by_cases hclock : hour < 24 ∧ minute < 60 ∧ second ≤ 60 ∧ nanos < nanosInSecond
  · rw [if_pos hclock] at h
    obtain ⟨-, -, -, hnanos⟩ := hclock
    extract_lets leap secondOfDay shown at h
    split at h
    · extract_lets found day at h
      split at h
      · next huniversal =>
        obtain rfl := Option.some.inj h
        refine ⟨fun hleap ↦ ?_, huniversal⟩
        change nanosInSecond ≤ (if second = 60 then nanos + nanosInSecond else nanos) at hleap
        change (hour * 3600 + minute * 60 + if second = 60 then 59 else second) % 60 = 59
        by_cases hcase : second = 60
        · rw [if_pos hcase]
          omega
        · rw [if_neg hcase] at hleap
          omega
      · cases h
    · cases h
  · rw [if_neg hclock] at h
    cases h

theorem chars_eq (t : DateTime) :
    t.chars = t.date.chars ++ 'T' :: (paddedDigits 2 (t.second / 3600) ++
      ':' :: (paddedDigits 2 (t.second / 60 % 60) ++ ':' :: (paddedDigits 2 t.clockSecond ++
        (fractionChars t.clockNanos ++ offsetChars t.offset)))) := by
  unfold chars clockSecond clockNanos
  simp only [List.append_assoc, List.cons_append]

theorem clock_bounds (t : DateTime) :
    t.second / 3600 < 100 ∧ t.second / 60 % 60 < 100 ∧ t.clockSecond < 100 ∧
      t.clockNanos < nanosInSecond := by
  have hsecond := t.second_lt
  have hnanos := t.nanos_lt
  have hday : secondsInDay = 86400 := rfl
  unfold clockSecond clockNanos
  split <;> omega

theorem fraction_clock (t : DateTime) :
    fraction (fractionChars t.clockNanos ++ offsetChars t.offset) =
      some (t.clockNanos, offsetChars t.offset) :=
  fraction_fractionChars t.clock_bounds.2.2.2 fun _ hc ↦
    ⟨(head_offsetChars hc).1, (head_offsetChars hc).2.1⟩

theorem strictDateTime_chars {t : DateTime} (h : t.Regular)
    (hyear : 0 ≤ t.date.year ∧ t.date.year ≤ 9999) :
    strictDateTime t.chars = some (t, []) := by
  obtain ⟨hhour, hminute, hsecond, -⟩ := t.clock_bounds
  have hmonth : t.date.month < 100 := by
    have := t.date.month_mem
    omega
  have hday : t.date.day < 100 := by
    have := t.date.day_mem
    have := daysInMonth_le t.date.year t.date.month
    omega
  have hsign : ((t.date.year.natAbs : Nat) : Int) = t.date.year := by omega
  rw [chars_eq, Date.chars, Date.yearChars, if_pos hyear]
  simp only [List.append_assoc, List.cons_append]
  rw [strictDateTime, bind_of_some (number_paddedDigits (by decide) (by omega)),
    bind_of_some (char_cons '-'), bind_of_some (number_paddedDigits (by decide) (by omega)),
    bind_of_some (char_cons '-'), bind_of_some (number_paddedDigits (by decide) (by omega)),
    bind_of_some (oneOf_cons (by decide)), bind_of_some (number_paddedDigits (by decide) hhour),
    bind_of_some (char_cons ':'), bind_of_some (number_paddedDigits (by decide) hminute),
    bind_of_some (char_cons ':'), bind_of_some (number_paddedDigits (by decide) hsecond),
    bind_of_some t.fraction_clock, bind_of_some (letter_or_offset t.offset_mem), hsign,
    bind_of_some (lift_of_some t.date.make?_self [])]
  exact lift_of_some (make?_clock h) []

theorem looseDateTime_seconds (t : DateTime) (scan : Scan Int) :
    looseDateTime (char 'T') true scan t.chars =
      (do
        let z ← scan
        make? t.date (t.second / 3600) (t.second / 60 % 60) t.clockSecond t.clockNanos z :
          Scan DateTime) (offsetChars t.offset) := by
  obtain ⟨hhour, hminute, hsecond, -⟩ := t.clock_bounds
  have hseconds : (do char ':'; let second ← short; return (second, ← fraction) : Scan (Nat × Nat))
      (':' :: (paddedDigits 2 t.clockSecond ++
        (fractionChars t.clockNanos ++ offsetChars t.offset))) =
      some ((t.clockSecond, t.clockNanos), offsetChars t.offset) := by
    rw [bind_of_some (char_cons ':'), bind_of_some (short_paddedDigits hsecond),
      bind_of_some t.fraction_clock]
    rfl
  rw [chars_eq, looseDateTime, bind_of_some (looseDate_chars _ _), bind_of_some (char_cons 'T'),
    bind_of_some (short_paddedDigits hhour), bind_of_some (char_cons ':'),
    bind_of_some (short_paddedDigits hminute), if_pos rfl, bind_of_some hseconds]

/-- Without seconds the text is not read to its end. -/
theorem whole?_looseDateTime_minutes (t : DateTime) (z : Int) :
    (looseDateTime (char 'T') false (pure z)).whole? t.chars = none := by
  obtain ⟨hhour, hminute, -, -⟩ := t.clock_bounds
  refine whole?_of_lift (?_ : _ = (liftM (make? t.date (t.second / 3600)
    (t.second / 60 % 60) 0 0 z) : Scan DateTime) (':' :: (paddedDigits 2 t.clockSecond ++
      (fractionChars t.clockNanos ++ offsetChars t.offset))))
  rw [chars_eq, looseDateTime, bind_of_some (looseDate_chars _ _), bind_of_some (char_cons 'T'),
    bind_of_some (short_paddedDigits hhour), bind_of_some (char_cons ':'),
    bind_of_some (short_paddedDigits hminute), if_neg (by decide)]
  rfl

/-- Blanks do not separate a date from its time where a letter stands. -/
theorem looseDateTime_blanks (t : DateTime) (withSeconds : Bool) (scan : Scan Int) :
    looseDateTime blanks withSeconds scan t.chars = none := by
  rw [chars_eq, looseDateTime, bind_of_some (looseDate_chars _ _),
    bind_of_some (blanks_of_not_blank ?_), bind_of_none (short_of_not_digit ?_)]
  · rintro _ ⟨⟩
    decide
  · rintro _ ⟨⟩
    decide

theorem strictDateTime_of_signed_year {t : DateTime}
    (hyear : ¬ (0 ≤ t.date.year ∧ t.date.year ≤ 9999)) : strictDateTime t.chars = none := by
  rw [chars_eq, Date.chars, Date.yearChars, if_neg hyear]
  simp only [List.cons_append]
  refine bind_of_none (number_of_not_digit (by decide) ?_) _
  rintro _ ⟨⟩
  split <;> decide

/-- A time is read back from its text if that names an offset or has a year of four digits. -/
theorem read?_chars {t : DateTime} (h : t.Regular)
    (htext : t.offset ≠ 0 ∨ (0 ≤ t.date.year ∧ t.date.year ≤ 9999)) : read? t.chars = some t := by
  by_cases hyear : 0 ≤ t.date.year ∧ t.date.year ≤ 9999
  · rw [read?, forms, List.findSome?_cons, whole?_of_some (strictDateTime_chars h hyear)]
  · have hoffset : t.offset ≠ 0 := htext.resolve_right hyear
    have hwritten : looseDateTime (char 'T') true (do blanks; Scan.offset looseSeparator) t.chars =
        some (t, []) := by
      rw [looseDateTime_seconds, bind_of_some, lift_of_some (make?_clock h)]
      rw [bind_of_some (blanks_of_not_blank fun _ hc ↦ (head_offsetChars hc).2.2)]
      exact offset_of_ne_zero hoffset t.offset_mem fun minutes ↦ looseSeparator_colon minutes
    rw [read?, forms, List.findSome?_cons,
      whole?_of_none (strictDateTime_of_signed_year hyear), List.findSome?_cons,
      whole?_of_some hwritten]

/-- In universal time a year that needs a sign is not read back. -/
theorem read?_chars_of_signed_year {t : DateTime} (hoffset : t.offset = 0)
    (hyear : ¬ (0 ≤ t.date.year ∧ t.date.year ≤ 9999)) : read? t.chars = none := by
  have hwritten : looseDateTime (char 'T') true (do blanks; Scan.offset looseSeparator) t.chars =
      none := by
    rw [looseDateTime_seconds, hoffset]
    rfl
  have huniversal : (looseDateTime (char 'T') true (pure 0)).whole? t.chars = none := by
    refine whole?_of_lift (?_ : _ = (liftM (make? t.date (t.second / 3600)
      (t.second / 60 % 60) t.clockSecond t.clockNanos 0) : Scan DateTime) ('Z' :: []))
    rw [looseDateTime_seconds, hoffset]
    rfl
  rw [read?, forms]
  simp only [List.findSome?_cons, List.findSome?_nil, whole?_of_none hwritten, huniversal,
    whole?_of_none (strictDateTime_of_signed_year hyear), whole?_looseDateTime_minutes,
    whole?_of_none (looseDateTime_blanks t _ _)]

theorem yields_strictDateTime : Yields Regular strictDateTime := by
  unfold strictDateTime
  iterate 14 refine Yields.bind fun _ ↦ ?_
  exact yields_lift fun _ hmake ↦ regular_of_make? hmake

theorem yields_looseDateTime (separator : Scan Unit) (withSeconds : Bool) (scan : Scan Int) :
    Yields Regular (looseDateTime separator withSeconds scan) := by
  unfold looseDateTime
  iterate 5 refine Yields.bind fun _ ↦ ?_
  extract_lets finish
  have hfinish : ∀ pair, Yields Regular (finish pair) := by
    rintro ⟨second, nanos⟩
    refine Yields.bind fun _ ↦ ?_
    exact yields_lift fun _ hmake ↦ regular_of_make? hmake
  split
  · exact Yields.bind hfinish
  · exact Yields.bind hfinish

/-- Only regular times are read. -/
theorem regular_of_read? {cs : List Char} {t : DateTime} (h : read? cs = some t) : t.Regular := by
  rw [read?] at h
  obtain ⟨scan, hscan, hread⟩ := List.exists_of_findSome?_eq_some h
  have hyields : ∀ scan ∈ forms, Yields Regular scan := by
    simp only [forms, List.forall_mem_cons, yields_strictDateTime, yields_looseDateTime, true_and]
    simp
  exact hyields scan hscan cs t [] (eq_some_of_whole? hread)

end DateTime

end ResourceQuery.Calendar
