import ResourceQuery.Calendar.Reader
import ResourceQuery.Proofs.Text.Numeral

/-!
What each reader of dates and times takes off the front of a text: the part that was written in its
form, whatever follows, if only what follows does not prolong it.
-/

set_option autoImplicit false

namespace ResourceQuery.Calendar.Scan

open Text (AllDigits paddedDigits)

variable {α β : Type} {cs rest : List Char}

theorem bind_of_some {scan : Scan α} {a : α} (h : scan cs = some (a, rest)) (next : α → Scan β) :
    (scan >>= next) cs = next a rest := by
  change ((scan cs).bind fun found ↦ next found.1 found.2) = next a rest
  rw [h, Option.bind_some]

theorem bind_of_none {scan : Scan α} (h : scan cs = none) (next : α → Scan β) :
    (scan >>= next) cs = none := by
  change ((scan cs).bind fun found ↦ next found.1 found.2) = none
  rw [h, Option.bind_none]

theorem bind_get (next : List Char → Scan β) : (get >>= next) cs = next cs cs :=
  rfl

theorem bind_eq_some_iff {scan : Scan α} {next : α → Scan β} {b : β} :
    (scan >>= next) cs = some (b, rest) ↔
      ∃ a behind, scan cs = some (a, behind) ∧ next a behind = some (b, rest) := by
  change ((scan cs).bind fun found ↦ next found.1 found.2) = some (b, rest) ↔ _
  rw [Option.bind_eq_some_iff]
  simp only [Prod.exists]

theorem orElse_of_some {scan : Scan α} {a : α} (h : scan cs = some (a, rest)) (other : Scan α) :
    (scan <|> other) cs = some (a, rest) := by
  change (scan cs <|> other cs) = _
  rw [h]
  rfl

theorem orElse_of_none {scan : Scan α} (h : scan cs = none) (other : Scan α) :
    (scan <|> other) cs = other cs := by
  change (scan cs <|> other cs) = _
  rw [h]
  rfl

theorem whole?_of_some {scan : Scan α} {a : α} (h : scan cs = some (a, [])) :
    scan.whole? cs = some a := by
  rw [whole?, h]

theorem whole?_of_none {scan : Scan α} (h : scan cs = none) : scan.whole? cs = none := by
  rw [whole?, h]

theorem whole?_of_rest {scan : Scan α} {a : α} {c : Char} (h : scan cs = some (a, c :: rest)) :
    scan.whole? cs = none := by
  rw [whole?, h]

theorem eq_some_of_whole? {scan : Scan α} {a : α} (h : scan.whole? cs = some a) :
    scan cs = some (a, []) := by
  unfold whole? at h
  split at h
  · next heq => rw [heq, Option.some.inj h]
  · cases h

theorem number_of_digits {least most : Nat} {ds : List Char} (hds : AllDigits ds)
    (hleast : least ≤ ds.length) (hmost : ds.length ≤ most)
    (hrest : ds.length < most → ∀ c ∈ rest.head?, c.isDigit = false) :
    number least most (ds ++ rest) = some (Text.ofDigits ds, rest) := by
  have htake : ((ds ++ rest).take most).takeWhile Char.isDigit = ds := by
    rw [List.take_append, List.take_of_length_le hmost]
    refine (Text.takeWhile_digits_append hds ?_).1
    intro c hc
    by_cases hlt : ds.length < most
    · rw [List.head?_take, if_neg (by omega)] at hc
      exact hrest hlt c hc
    · rw [List.head?_take, if_pos (by omega)] at hc
      cases hc
  rw [number, htake, if_neg (Nat.not_lt.2 hleast), List.drop_left]

theorem number_paddedDigits {width n : Nat} (hwidth : 0 < width) (h : n < 10 ^ width) :
    number width width (paddedDigits width n ++ rest) = some (n, rest) := by
  have hlength := Text.length_paddedDigits hwidth h
  rw [number_of_digits (Text.allDigits_paddedDigits width n) (by omega) (by omega) (by omega),
    Text.ofDigits_paddedDigits]

theorem number_of_not_digit {least most : Nat} (hleast : 0 < least)
    (h : ∀ c ∈ cs.head?, c.isDigit = false) : number least most cs = none := by
  have htake : (cs.take most).takeWhile Char.isDigit = [] := by
    rcases cs with _ | ⟨c, cs⟩
    · simp
    · cases most with
      | zero => rfl
      | succ most =>
        have hc := h c rfl
        simp [hc]
  rw [number, htake, List.length_nil, if_pos hleast]

theorem oneOf_cons {admitted : List Char} {c : Char} (h : c ∈ admitted) :
    oneOf admitted (c :: rest) = some ((), rest) := by
  rw [oneOf, if_pos h]

theorem oneOf_of_not_mem {admitted : List Char} (h : ∀ c ∈ cs.head?, c ∉ admitted) :
    oneOf admitted cs = none := by
  rcases cs with _ | ⟨c, cs⟩
  · rfl
  · rw [oneOf, if_neg (h c rfl)]

theorem char_cons (c : Char) : char c (c :: rest) = some ((), rest) :=
  oneOf_cons (List.mem_singleton_self c)

theorem blanks_of_not_blank (h : ∀ c ∈ cs.head?, Text.isBlank c = false) :
    blanks cs = some ((), cs) := by
  rcases cs with _ | ⟨c, cs⟩
  · rfl
  · rw [blanks, Text.trimLeft_eq_self (h c rfl)]

theorem isBlank_of_isDigit {c : Char} (h : c.isDigit = true) : Text.isBlank c = false := by
  have hdigit : c.isDigit = (decide (48 ≤ c.toNat) && decide (c.toNat ≤ 57)) := rfl
  rw [hdigit, Bool.and_eq_true, decide_eq_true_eq, decide_eq_true_eq] at h
  simp only [Text.isBlank, Bool.or_eq_false_iff, Bool.and_eq_false_iff, decide_eq_false_iff_not,
    beq_eq_false_iff_ne]
  omega

theorem exists_digit_cons {width n : Nat} :
    ∃ c ds, paddedDigits width n = c :: ds ∧ c.isDigit = true := by
  have hdigits := Text.allDigits_paddedDigits width n
  rcases hds : paddedDigits width n with _ | ⟨c, ds⟩
  · rw [Text.paddedDigits_eq, List.append_eq_nil_iff] at hds
    exact absurd hds.2 (Text.digits_ne_nil n)
  · exact ⟨c, ds, rfl, hdigits c (hds ▸ List.mem_cons_self)⟩

theorem blanks_paddedDigits (width n : Nat) :
    blanks (paddedDigits width n ++ rest) = some ((), paddedDigits width n ++ rest) := by
  obtain ⟨c, ds, hds, hc⟩ := @exists_digit_cons width n
  rw [hds]
  refine blanks_of_not_blank ?_
  rintro _ ⟨⟩
  exact isBlank_of_isDigit hc

theorem short_paddedDigits {n : Nat} (h : n < 100) :
    short (paddedDigits 2 n ++ rest) = some (n, rest) := by
  have hlength := Text.length_paddedDigits (by decide) (show n < 10 ^ 2 from h)
  rw [short, bind_of_some (blanks_paddedDigits 2 n),
    number_of_digits (Text.allDigits_paddedDigits 2 n) (by omega) (by omega) (by omega),
    Text.ofDigits_paddedDigits]

theorem short_of_not_digit (h : ∀ c ∈ cs.head?, Text.isBlank c = false ∧ c.isDigit = false) :
    short cs = none := by
  rw [short, bind_of_some (blanks_of_not_blank fun c hc ↦ (h c hc).1)]
  exact number_of_not_digit (by decide) fun c hc ↦ (h c hc).2

theorem lift_of_some {found : Option α} {a : α} (h : found = some a) (cs : List Char) :
    (liftM found : Scan α) cs = some (a, cs) := by
  rw [h]
  rfl

theorem whole?_of_lift {scan : Scan α} {found : Option α} {c : Char}
    (h : scan cs = (liftM found : Scan α) (c :: rest)) : scan.whole? cs = none := by
  rcases found with _ | a
  · exact whole?_of_none h
  · exact whole?_of_rest h

/-- Whatever a reader finds has the property. -/
def Yields (P : α → Prop) (scan : Scan α) : Prop :=
  ∀ cs a rest, scan cs = some (a, rest) → P a

theorem Yields.bind {P : β → Prop} {scan : Scan α} {next : α → Scan β}
    (h : ∀ a, Yields P (next a)) : Yields P (scan >>= next) := by
  intro cs b rest hread
  obtain ⟨a, behind, -, hnext⟩ := bind_eq_some_iff.1 hread
  exact h a behind b rest hnext

theorem yields_lift {P : α → Prop} {found : Option α} (h : ∀ a, found = some a → P a) :
    Yields P (liftM found : Scan α) := by
  intro cs a rest hread
  rcases found with _ | b
  · cases hread
  · obtain rfl : b = a := by
      cases hread
      rfl
    exact h b rfl

theorem year_minus {n : Nat} (h : number 1 cs.length cs = some (n, rest)) :
    year ('-' :: cs) = some (-(n : Int), rest) := by
  change ((number 1 cs.length cs).bind fun found ↦ some (-(found.1 : Int), found.2)) = _
  rw [h, Option.bind_some]

theorem year_plus {n : Nat} (h : number 1 cs.length cs = some (n, rest)) :
    year ('+' :: cs) = some ((n : Int), rest) := by
  change ((number 1 cs.length cs).bind fun found ↦ some ((found.1 : Int), found.2)) = _
  rw [h, Option.bind_some]

theorem year_digit {c : Char} {n : Nat} (hc : c.isDigit = true)
    (h : number 1 4 (c :: cs) = some (n, rest)) : year (c :: cs) = some ((n : Int), rest) := by
  have hblanks : blanks (c :: cs) = some ((), c :: cs) := by
    refine blanks_of_not_blank ?_
    rintro _ ⟨⟩
    exact isBlank_of_isDigit hc
  rw [year, bind_of_some hblanks, bind_get]
  change StateT.run _ (c :: cs) = _
  split
  · next heq =>
    obtain rfl := (List.cons.inj heq).1
    cases hc
  · next heq =>
    obtain rfl := (List.cons.inj heq).1
    cases hc
  · exact bind_of_some h _

/-- The year ends where something other than a digit follows. -/
theorem year_yearChars (y : Int) (hrest : ∀ c ∈ rest.head?, c.isDigit = false) :
    year (Date.yearChars y ++ rest) = some (y, rest) := by
  have hvalue := Text.ofDigits_paddedDigits 4 y.natAbs
  have hdigits := Text.allDigits_paddedDigits 4 y.natAbs
  have hleast := Text.le_length_paddedDigits 4 y.natAbs
  rw [Date.yearChars]
  split
  · next hy =>
    have hlength := Text.length_paddedDigits (by decide) (show y.natAbs < 10 ^ 4 by omega)
    have hnumber := @number_of_digits rest 1 4 _ hdigits (by omega)
      (Nat.le_of_eq hlength) (by omega)
    have hsign : ((y.natAbs : Nat) : Int) = y := by omega
    obtain ⟨c, ds, hds, hc⟩ := @exists_digit_cons 4 y.natAbs
    rw [hvalue, hds] at hnumber
    rw [hds]
    exact (year_digit hc hnumber).trans (by rw [hsign])
  · next hy =>
    have hlength : (paddedDigits 4 y.natAbs).length ≤ (paddedDigits 4 y.natAbs ++ rest).length := by
      rw [List.length_append]
      exact Nat.le_add_right _ _
    have hnumber := @number_of_digits rest 1 _ _ hdigits (by omega) hlength fun _ ↦ hrest
    rw [hvalue] at hnumber
    rw [List.cons_append]
    split
    · have hsign : -((y.natAbs : Nat) : Int) = y := by omega
      rw [year_minus hnumber, hsign]
    · have hsign : ((y.natAbs : Nat) : Int) = y := by omega
      rw [year_plus hnumber, hsign]

theorem fraction_point {ds : List Char} (hds : AllDigits ds) (hne : ds ≠ [])
    (hrest : ∀ c ∈ rest.head?, c.isDigit = false) :
    fraction ('.' :: (ds ++ rest)) =
      some (Text.ofDigits ((ds ++ List.replicate 9 '0').take 9), rest) := by
  obtain ⟨htake, -⟩ := Text.takeWhile_digits_append hds hrest
  have hempty : ds.isEmpty ≠ true := by simpa [List.isEmpty_iff] using hne
  rw [fraction, bind_get]
  change (if ((ds ++ rest).takeWhile Char.isDigit).isEmpty = true then (_ : Scan Nat) else _) _ = _
  rw [htake, if_neg hempty]
  change some (_, (ds ++ rest).drop ds.length) = _
  rw [List.drop_left]

theorem fraction_of_ne (h : ∀ c ∈ cs.head?, c ≠ '.') : fraction cs = some (0, cs) := by
  rw [fraction, bind_get]
  change StateT.run _ cs = _
  split
  · exact absurd rfl (h '.' rfl)
  · rfl

/-- A fraction is read to nanoseconds, whichever number of places shows all of it. -/
theorem fraction_paddedDigits {width n nanos : Nat} (hwidth : 0 < width) (hmost : width ≤ 9)
    (hn : n < 10 ^ width) (hnanos : nanos = 10 ^ (9 - width) * n)
    (hrest : ∀ c ∈ rest.head?, c.isDigit = false) :
    fraction ('.' :: (paddedDigits width n ++ rest)) = some (nanos, rest) := by
  have hlength := Text.length_paddedDigits hwidth hn
  have hne : paddedDigits width n ≠ [] := by
    rw [← List.length_pos_iff]
    omega
  have htake : (paddedDigits width n ++ List.replicate 9 '0').take 9 =
      paddedDigits width n ++ List.replicate (9 - width) '0' := by
    rw [List.take_append, List.take_of_length_le (by omega), List.take_replicate, hlength,
      Nat.min_eq_left (by omega)]
  rw [fraction_point (Text.allDigits_paddedDigits width n) hne hrest, htake,
    Text.ofDigits_append_zeros, Text.ofDigits_paddedDigits, hnanos]

theorem fraction_fractionChars {nanos : Nat} (hnanos : nanos < nanosInSecond)
    (hrest : ∀ c ∈ rest.head?, c.isDigit = false ∧ c ≠ '.') :
    fraction (DateTime.fractionChars nanos ++ rest) = some (nanos, rest) := by
  have hdigit : ∀ c ∈ rest.head?, c.isDigit = false := fun c hc ↦ (hrest c hc).1
  rw [nanosInSecond] at hnanos
  rw [DateTime.fractionChars]
  split
  · next hzero =>
    rw [hzero]
    exact fraction_of_ne fun c hc ↦ (hrest c hc).2
  · split
    · exact fraction_paddedDigits (by decide) (by decide) (by omega) (by omega) hdigit
    · split
      · exact fraction_paddedDigits (by decide) (by decide) (by omega) (by omega) hdigit
      · exact fraction_paddedDigits (by decide) (by decide) (by omega) (by omega) hdigit

theorem offset_of_sign {separator : Scan Unit} {c : Char} {negative : Bool} {hours minutes : Nat}
    (hc : c ∈ ['+', '-', minusSign]) (hnegative : negative = (some c != some '+'))
    (hhours : hours < 100) (hminutes : minutes < 60)
    (hseparator : separator (':' :: (paddedDigits 2 minutes ++ rest)) =
      some ((), paddedDigits 2 minutes ++ rest)) :
    offset separator (c :: (paddedDigits 2 hours ++ ':' :: (paddedDigits 2 minutes ++ rest))) =
      some (Text.withSign negative (60 * hours + minutes), rest) := by
  have hnumber := @number_paddedDigits rest 2 minutes (by decide) (by omega)
  rw [offset, bind_get, bind_of_some (oneOf_cons hc)]
  rw [bind_of_some (number_paddedDigits (by decide) hhours), bind_of_some hseparator,
    bind_of_some hnumber]
  dsimp only
  rw [if_neg (Nat.not_le.2 hminutes), hnegative]
  rfl

theorem offset_offsetChars {separator : Scan Unit} {z : Int} (hzero : z ≠ 0)
    (hbound : -1440 < z ∧ z < 1440)
    (hseparator : ∀ minutes, separator (':' :: (paddedDigits 2 minutes ++ rest)) =
      some ((), paddedDigits 2 minutes ++ rest)) :
    offset separator (DateTime.offsetChars z ++ rest) = some (z, rest) := by
  have hminutes : z.natAbs % 60 < 60 := Nat.mod_lt _ (by decide)
  have hhours : z.natAbs / 60 < 100 := by omega
  have hdivision := Nat.div_add_mod z.natAbs 60
  rw [DateTime.offsetChars, if_neg hzero]
  simp only [List.cons_append, List.append_assoc]
  split
  · next hsign =>
    rw [offset_of_sign (by decide) (by decide : true = _) hhours hminutes (hseparator _),
      hdivision, Text.withSign, if_pos rfl]
    congr 2
    omega
  · next hsign =>
    rw [offset_of_sign (by decide) (by decide : false = _) hhours hminutes (hseparator _),
      hdivision, Text.withSign, if_neg (by decide)]
    congr 2
    omega

theorem looseSeparator_colon (minutes : Nat) :
    looseSeparator (':' :: (paddedDigits 2 minutes ++ rest)) =
      some ((), paddedDigits 2 minutes ++ rest) := by
  obtain ⟨c, ds, hds, hc⟩ := @exists_digit_cons 2 minutes
  have hcolon : c ≠ ':' := by
    rintro rfl
    cases hc
  rw [hds, looseSeparator, List.dropWhile_cons_of_pos (by decide), List.cons_append,
    List.dropWhile_cons_of_neg (by simp [hcolon, isBlank_of_isDigit hc])]

end ResourceQuery.Calendar.Scan
