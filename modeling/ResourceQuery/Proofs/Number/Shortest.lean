import Mathlib.Data.List.TakeWhile
import ResourceQuery.Number.Scientific
import ResourceQuery.Number.Shortest
import ResourceQuery.Proofs.Number.Scientific
import ResourceQuery.Proofs.Text.Numeral

/-!
The text of a finite double reads back as that double. The digits are chosen so that they do, zeros
at their end are dropped and put back by the layout, and reading depends on the value of the text
alone.
-/

set_option autoImplicit false

namespace ResourceQuery.Number

open Text (AllDigits allDigits_digits)

namespace Binary64

/-- The sign does not take part in the rounding. -/
theorem exists_ofSteps {digits : Nat} (h : digits ≠ 0) (exponent : Int) :
    ∃ num den, ∀ negative, ofScientific negative digits exponent = ofSteps negative num den := by
  have hsplit :
      exponent = ((exponent + exponent.natAbs).toNat : Nat) - (exponent.natAbs : Nat) := by
    omega
  exact ⟨_, _, ofScientific_eq_ofSteps h hsplit⟩

theorem ofScientific_of_readsBack {steps digits : Nat} {exponent : Int} (h : Representable steps)
    (hread : readsBack steps digits exponent = true) (negative : Bool) :
    ofScientific negative digits exponent = .finite negative steps h := by
  unfold readsBack at hread
  by_cases hdigits : digits = 0
  · have hzero : ∀ negative, ofScientific negative digits exponent = zero negative := by
      intro negative
      rw [ofScientific, if_pos hdigits]
    rw [hzero, zero] at hread
    have hsteps : 0 = steps := beq_iff_eq.1 hread
    rw [hzero, zero]
    congr 1
  · obtain ⟨num, den, hvalue⟩ := exists_ofSteps hdigits exponent
    rw [hvalue] at hread ⊢
    by_cases hbound : nearestSteps num den < bound
    · rw [ofSteps, dif_pos hbound] at hread ⊢
      have hsteps : nearestSteps num den = steps := beq_iff_eq.1 hread
      congr 1
    · rw [ofSteps, dif_neg hbound] at hread
      cases hread

theorem digits_ne_zero_of_readsBack {steps digits : Nat} {exponent : Int} (hpos : steps ≠ 0)
    (hread : readsBack steps digits exponent = true) : digits ≠ 0 := by
  intro hdigits
  rw [readsBack, ofScientific, if_pos hdigits, zero] at hread
  exact hpos (beq_iff_eq.1 hread).symm

theorem readsBack_of_neighbour? {tieUp : Bool} {steps digits : Nat} {exponent : Int}
    (h : neighbour? tieUp steps exponent = some digits) :
    readsBack steps digits exponent = true := by
  unfold neighbour? at h
  dsimp only at h
  split at h
  · next hlow hhigh =>
    split at h
    · exact Option.some.inj h ▸ hlow
    · exact Option.some.inj h ▸ hhigh
  · next hlow _ => exact Option.some.inj h ▸ hlow
  · next hhigh => exact Option.some.inj h ▸ hhigh
  · cases h

theorem readsBack_of_ofScientific {steps digits : Nat} {exponent : Int} {h : Representable steps}
    (hvalue : ofScientific false digits exponent = .finite false steps h) :
    readsBack steps digits exponent = true := by
  rw [readsBack, hvalue]
  exact beq_self_eq_true steps

/-- Every double has an exact expansion with 1074 places. -/
theorem readsBack_expansion {steps : Nat} (h : Representable steps) (hpos : steps ≠ 0) :
    readsBack steps (steps * Nat.pow 5 1074) (-1074) = true := by
  obtain ⟨places, hplaces, hfives, hten⟩ :
      ∃ n : Nat, n = 1074 ∧ 0 < Nat.pow 5 1074 ∧ Nat.pow 5 1074 * unit = 10 ^ n :=
    ⟨1074, rfl, by decide +kernel, by decide +kernel⟩
  generalize Nat.pow 5 1074 = fives at hfives hten ⊢
  have hdigits : steps * fives ≠ 0 := Nat.mul_ne_zero hpos (Nat.pos_iff_ne_zero.1 hfives)
  have hexponent : (-1074 : Int) = (0 : Nat) - (places : Nat) := by omega
  have hvalue : steps * fives * 10 ^ 0 * unit * 1 = steps * 10 ^ places := by
    rw [← hten]
    generalize unit = one
    rw [Nat.pow_zero, Nat.mul_one, Nat.mul_one, Nat.mul_assoc]
  refine readsBack_of_ofScientific (h := h) ?_
  rw [ofScientific_eq_ofSteps hdigits hexponent,
    ofSteps_eq_of_mul_eq (Nat.pow_pos (by decide)) Nat.one_pos hvalue, ofSteps_of_representable h]

/-- The digits are a neighbour on some grid or the exact expansion. -/
theorem shortestDigits_eq_or (tieUp : Bool) (steps : Nat) :
    (∃ digits exponent, shortestDigits tieUp steps = (digits, exponent) ∧
      neighbour? tieUp steps exponent = some digits) ∨
    shortestDigits tieUp steps = (steps * Nat.pow 5 1074, -1074) := by
  unfold shortestDigits
  extract_lets point found
  rcases hfound : found with _ | pair
  · exact .inr (Option.getD_none ..)
  · obtain ⟨n, _, hn⟩ := List.exists_of_findSome?_eq_some hfound
    obtain ⟨digits, hdigits, rfl⟩ := Option.map_eq_some_iff.1 hn
    exact .inl ⟨digits, _, Option.getD_some .., hdigits⟩

theorem readsBack_shortestDigits (tieUp : Bool) {steps : Nat} (h : Representable steps)
    (hpos : steps ≠ 0) :
    readsBack steps (shortestDigits tieUp steps).1 (shortestDigits tieUp steps).2 = true := by
  obtain ⟨digits, exponent, heq, hdigits⟩ | heq := shortestDigits_eq_or tieUp steps
  · rw [heq]
    exact readsBack_of_neighbour? hdigits
  · have hexpansion := readsBack_expansion h hpos
    rw [heq]
    exact hexpansion

/-- Digits without the zeros at their end. -/
theorem exists_zeros (ds : List Char) :
    ∃ k, ds = (ds.reverse.dropWhile (· == '0')).reverse ++ List.replicate k '0' := by
  refine ⟨(ds.reverse.takeWhile (· == '0')).length, ?_⟩
  have hzeros : ds.reverse.takeWhile (· == '0') =
      List.replicate (ds.reverse.takeWhile (· == '0')).length '0' := by
    refine List.eq_replicate_of_mem fun c hc ↦ ?_
    simpa using List.mem_takeWhile_imp hc
  have hsplit := List.takeWhile_append_dropWhile (p := (· == '0')) (l := ds.reverse)
  rw [hzeros] at hsplit
  have hreverse := congrArg List.reverse hsplit
  rw [List.reverse_append, List.reverse_replicate, List.reverse_reverse] at hreverse
  exact hreverse.symm

end Binary64

namespace Scientific

theorem splitMantissa_point {whole fraction rest : List Char} (hwhole : AllDigits whole)
    (hfraction : AllDigits fraction) (hrest : ∀ c ∈ rest.head?, c.isDigit = false) :
    splitMantissa (whole ++ '.' :: (fraction ++ rest)) = (whole, fraction, rest) := by
  have hpoint : ∀ c ∈ ('.' :: (fraction ++ rest)).head?, c.isDigit = false := by
    rintro c ⟨⟩
    rfl
  obtain ⟨htake, hdrop⟩ := Text.takeWhile_digits_append hwhole hpoint
  obtain ⟨htake', hdrop'⟩ := Text.takeWhile_digits_append hfraction hrest
  rw [splitMantissa, htake, hdrop]
  change (whole, (fraction ++ rest).takeWhile Char.isDigit,
    (fraction ++ rest).dropWhile Char.isDigit) = _
  rw [htake', hdrop']

theorem splitMantissa_plain {whole rest : List Char} (hwhole : AllDigits whole)
    (hrest : ∀ c ∈ rest.head?, c.isDigit = false ∧ c ≠ '.') :
    splitMantissa (whole ++ rest) = (whole, [], rest) := by
  obtain ⟨htake, hdrop⟩ := Text.takeWhile_digits_append hwhole fun c hc ↦ (hrest c hc).1
  rw [splitMantissa, htake, hdrop]
  split
  · next tail => exact absurd rfl (hrest '.' rfl).2
  · rfl

theorem read?_of_split {cs unsigned whole fraction rest : List Char} {negative : Bool}
    {exponent : Int} (hsign : Text.splitSign cs = (negative, unsigned))
    (hmantissa : splitMantissa unsigned = (whole, fraction, rest)) (hne : whole ≠ [])
    (hexponent : readExponent? rest = some exponent) :
    read? cs = some ⟨negative, Text.ofDigits (whole ++ fraction), exponent - fraction.length⟩ := by
  rw [read?, hsign]
  dsimp only
  rw [hmantissa]
  dsimp only
  rw [if_neg (by simp [hne]), hexponent, Option.map_some]

end Scientific

namespace Binary64

/-- What a layout writes for a sign and digits is read as the number of these digits with the point
in its place. -/
def Shows (unsigned ds : List Char) (point : Int) : Prop :=
  ∀ negative, Binary64.read? ((if negative then ['-'] else []) ++ unsigned) =
    some (ofScientific negative (Text.ofDigits ds) (point - ds.length))

theorem splitSign_signed {c : Char} {cs : List Char} (h : c.isDigit = true) (negative : Bool) :
    Text.splitSign ((if negative then ['-'] else []) ++ c :: cs) = (negative, c :: cs) := by
  cases negative with
  | true => rfl
  | false => exact Text.splitSign_of_digit h

theorem shows_of_split {c : Char} {unsigned whole fraction rest ds : List Char}
    {exponent point : Int} (hdigit : c.isDigit = true)
    (hmantissa : Scientific.splitMantissa (c :: unsigned) = (whole, fraction, rest))
    (hne : whole ≠ []) (hexponent : Scientific.readExponent? rest = some exponent) {k : Nat}
    (hvalue : Text.ofDigits (whole ++ fraction) = 10 ^ k * Text.ofDigits ds)
    (hpoint : exponent - fraction.length + k = point - ds.length) :
    Shows (c :: unsigned) ds point := by
  intro negative
  rw [Binary64.read?, Scientific.read?_of_split (splitSign_signed hdigit negative) hmantissa hne
    hexponent, Option.map_some]
  dsimp only
  rw [hvalue, ofScientific_mul_ten_pow, hpoint]

theorem shows_positional {ds : List Char} (hds : AllDigits ds) (hne : ds ≠ []) (point : Int) :
    Shows (positional ds point) ds point := by
  have hzero : ('0' : Char).isDigit = true := by decide
  obtain ⟨d, tail, rfl⟩ := List.exists_cons_of_ne_nil hne
  have hd : d.isDigit = true := hds d List.mem_cons_self
  rw [positional]
  split
  · next hpoint =>
    have hmantissa := @Scientific.splitMantissa_point ['0'] _ [] (Text.allDigits_replicate_zero 1)
      ((Text.allDigits_replicate_zero point.natAbs).append hds) (by simp)
    rw [List.append_nil] at hmantissa
    refine shows_of_split (k := 0) hzero hmantissa (by simp) rfl ?_ ?_
    · rw [← List.append_assoc, ← List.replicate_one, List.replicate_append_replicate,
        Text.ofDigits_zeros_append, Nat.pow_zero, Nat.one_mul]
    · simp only [List.length_append, List.length_replicate]
      omega
  · next hpoint =>
    dsimp only
    split
    · next hlength =>
      obtain ⟨k, hk⟩ := Nat.le.dest hlength
      have hwhole := hds.append (Text.allDigits_replicate_zero (point.toNat - (d :: tail).length))
      have hmantissa := @Scientific.splitMantissa_point _ ['0'] [] hwhole
        (Text.allDigits_replicate_zero 1) (by simp)
      rw [List.append_nil] at hmantissa
      refine shows_of_split (k := k + 1) hd hmantissa (by simp) rfl ?_ ?_
      · have hzeros : point.toNat - (d :: tail).length = k := by omega
        rw [hzeros, ← List.replicate_one, List.append_assoc, List.replicate_append_replicate,
          Text.ofDigits_append_zeros]
      · simp only [List.length_cons, List.length_nil] at hk ⊢
        omega
    · next hlength =>
      obtain ⟨w, hw⟩ : ∃ w, point.toNat = w + 1 := ⟨point.toNat - 1, by omega⟩
      have htail : AllDigits tail := fun c hc ↦ hds c (List.mem_cons_of_mem d hc)
      have hwhole : AllDigits (d :: tail.take w) := by
        intro c hc
        rcases List.mem_cons.1 hc with rfl | hc
        · exact hd
        · exact htail c (List.mem_of_mem_take hc)
      have hmantissa := @Scientific.splitMantissa_point _ (tail.drop w) [] hwhole
        (fun c hc ↦ htail c (List.mem_of_mem_drop hc)) (by simp)
      rw [List.append_nil] at hmantissa
      rw [hw, List.take_succ_cons, List.drop_succ_cons]
      refine shows_of_split (k := 0) hd hmantissa (by simp) rfl ?_ ?_
      · rw [List.cons_append, List.take_append_drop, Nat.pow_zero, Nat.one_mul]
      · simp only [List.length_cons, List.length_drop] at hlength ⊢
        omega

/-- The digits before and behind the point, and an exponent. -/
theorem shows_exponential {ds : List Char} (hds : AllDigits ds) (hne : ds ≠ []) (plusSign : Bool)
    (exponent : Int) : Shows (exponential plusSign ds exponent) ds (exponent + 1) := by
  obtain ⟨d, tail, rfl⟩ := List.exists_cons_of_ne_nil hne
  have hd : d.isDigit = true := hds d List.mem_cons_self
  have htail : AllDigits tail := fun c hc ↦ hds c (List.mem_cons_of_mem d hc)
  have hwhole : AllDigits [d] := by simpa [AllDigits] using hd
  have hexponent : Scientific.readExponent? ('e' ::
      ((if plusSign && 0 ≤ exponent then ['+'] else []) ++ Text.signedDigits exponent)) =
        some exponent := by
    rw [Scientific.readExponent?, if_pos (.inl rfl)]
    split
    · next h =>
      have hsign : 0 ≤ exponent := by simp_all
      exact Text.readInt?_plus_signedDigits hsign
    · exact Text.readInt?_signedDigits exponent
  have hrest : ∀ c ∈ ('e' :: ((if plusSign && 0 ≤ exponent then ['+'] else []) ++
      Text.signedDigits exponent)).head?, c.isDigit = false ∧ c ≠ '.' := by
    rintro c ⟨⟩
    decide
  rw [exponential]
  dsimp only [List.drop_succ_cons, List.drop_zero, List.take_succ_cons, List.take_zero]
  cases tail with
  | nil =>
    have hmantissa := Scientific.splitMantissa_plain hwhole hrest
    exact shows_of_split (k := 0) hd hmantissa (by simp) hexponent (by simp) (by simp)
  | cons e tail =>
    have hmantissa := Scientific.splitMantissa_point hwhole htail fun c hc ↦ (hrest c hc).1
    refine shows_of_split (k := 0) hd (?_ : _ = ([d], e :: tail, _)) (by simp) hexponent
      (by simp) ?_
    · simpa using hmantissa
    · simp only [List.length_cons]
      omega

/-- Zeros at the end of the digits do not count: the layout knows where the point stands. -/
theorem exists_layout (layout : FloatLayout) {steps : Nat} (h : Representable steps)
    (hpos : steps ≠ 0) :
    ∃ (ds : List Char) (k : Nat) (last : Int), AllDigits ds ∧ ds ≠ [] ∧
      readsBack steps (10 ^ k * Text.ofDigits ds) last = true ∧
      (magnitudeChars layout steps = positional ds (last + k + ds.length) ∨
        magnitudeChars layout steps =
          exponential layout.plusSign ds (last + k + ds.length - 1)) := by
  have hread := readsBack_shortestDigits layout.tieUp h hpos
  rw [magnitudeChars, if_neg hpos]
  generalize shortestDigits layout.tieUp steps = pair at hread ⊢
  obtain ⟨n, last⟩ := pair
  dsimp only at hread ⊢
  obtain ⟨k, hk⟩ := exists_zeros (Text.digits n)
  generalize ((Text.digits n).reverse.dropWhile (· == '0')).reverse = ds at hk ⊢
  have hvalue : n = 10 ^ k * Text.ofDigits ds := by
    rw [← Text.ofDigits_append_zeros, ← hk, Text.ofDigits_digits]
  have hne : ds ≠ [] := by
    rintro rfl
    exact digits_ne_zero_of_readsBack hpos hread hvalue
  have hds : AllDigits ds := by
    intro c hc
    refine allDigits_digits n c ?_
    rw [hk]
    exact List.mem_append_left _ hc
  have hlength : last + ((Text.digits n).length : Int) = last + k + ds.length := by
    rw [hk, List.length_append, List.length_replicate]
    omega
  rw [hlength, Int.sub_add_cancel]
  refine ⟨ds, k, last, hds, hne, hvalue ▸ hread, ?_⟩
  split
  · exact .inl rfl
  · exact .inr rfl

theorem shows_magnitude (layout : FloatLayout) {steps : Nat} (h : Representable steps)
    (hpos : steps ≠ 0) (negative : Bool) :
    Binary64.read? ((if negative then ['-'] else []) ++ magnitudeChars layout steps) =
      some (.finite negative steps h) := by
  obtain ⟨ds, k, last, hds, hne, hread, hlayout⟩ := exists_layout layout h hpos
  have hshows : Shows (magnitudeChars layout steps) ds (last + k + ds.length) := by
    obtain hplain | hmark := hlayout
    · rw [hplain]
      exact shows_positional hds hne _
    · have hshows := shows_exponential hds hne layout.plusSign (last + k + ds.length - 1)
      rwa [Int.sub_add_cancel, ← hmark] at hshows
  have hpoint : last + k + ds.length - ds.length = last + k := by omega
  rw [hshows negative, hpoint, ← ofScientific_mul_ten_pow, ofScientific_of_readsBack h hread]

/-- A finite double is read back from its text, in whatever layout. -/
theorem read?_chars (layout : FloatLayout) (negative : Bool) {steps : Nat}
    (h : Representable steps) :
    Binary64.read? (chars layout (.finite negative steps h)) = some (.finite negative steps h) := by
  rw [chars]
  by_cases hpos : steps = 0
  · have hzero := shows_positional (Text.allDigits_replicate_zero 1) (by simp) 1 negative
    have hdigits : Text.ofDigits (List.replicate 1 '0') = 0 := by decide
    rw [hdigits, ofScientific, if_pos rfl, zero] at hzero
    rw [magnitudeChars, if_pos hpos]
    refine hzero.trans ?_
    congr 2
    exact hpos.symm
  · exact shows_magnitude layout h hpos negative

def IsNumeralChar (c : Char) : Prop :=
  c.isDigit = true ∨ c ∈ ['.', 'e', '-', '+']

/-- The shape of a numeral that is not read as an integer: it starts with a digit and does not
consist of digits alone. -/
structure IsFractional (cs : List Char) : Prop where
  chars : ∀ c ∈ cs, IsNumeralChar c
  head : ∃ c rest, cs = c :: rest ∧ c.isDigit = true
  other : ∃ c ∈ cs, c.isDigit = false

theorem isNumeralChar_of_digits {cs : List Char} (h : AllDigits cs) : ∀ c ∈ cs, IsNumeralChar c :=
  fun c hc ↦ .inl (h c hc)

theorem isNumeralChar_signedDigits (z : Int) : ∀ c ∈ Text.signedDigits z, IsNumeralChar c := by
  unfold Text.signedDigits
  split
  · exact List.forall_mem_cons.2 ⟨.inr (by decide), isNumeralChar_of_digits (allDigits_digits _)⟩
  · exact isNumeralChar_of_digits (allDigits_digits _)

theorem isFractional_point {whole fraction : List Char} (hwhole : AllDigits whole)
    (hfraction : AllDigits fraction) (hne : whole ≠ []) :
    IsFractional (whole ++ '.' :: fraction) := by
  obtain ⟨c, rest, rfl⟩ := List.exists_cons_of_ne_nil hne
  refine ⟨?_, ⟨c, _, rfl, hwhole c List.mem_cons_self⟩, ⟨'.', by simp, by decide⟩⟩
  exact List.forall_mem_append.2 ⟨isNumeralChar_of_digits hwhole,
    List.forall_mem_cons.2 ⟨.inr (by decide), isNumeralChar_of_digits hfraction⟩⟩

theorem isFractional_positional {ds : List Char} (hds : AllDigits ds) (hne : ds ≠ [])
    (point : Int) : IsFractional (positional ds point) := by
  rw [positional]
  split
  · exact isFractional_point (Text.allDigits_replicate_zero 1)
      ((Text.allDigits_replicate_zero point.natAbs).append hds) (by simp)
  · dsimp only
    split
    · exact isFractional_point (hds.append (Text.allDigits_replicate_zero _))
        (Text.allDigits_replicate_zero 1) (by simp [hne])
    · next hpoint _ =>
      have hwhole : ds.take point.toNat ≠ [] := by
        rw [← List.length_pos_iff, List.length_take]
        have := List.length_pos_iff.2 hne
        omega
      exact isFractional_point (fun c hc ↦ hds c (List.mem_of_mem_take hc))
        (fun c hc ↦ hds c (List.mem_of_mem_drop hc)) hwhole

theorem isFractional_exponential {ds : List Char} (hds : AllDigits ds) (hne : ds ≠ [])
    (plusSign : Bool) (exponent : Int) : IsFractional (exponential plusSign ds exponent) := by
  obtain ⟨d, tail, rfl⟩ := List.exists_cons_of_ne_nil hne
  have hd : d.isDigit = true := hds d List.mem_cons_self
  have htail : AllDigits tail := fun c hc ↦ hds c (List.mem_cons_of_mem d hc)
  rw [exponential]
  dsimp only [List.drop_succ_cons, List.drop_zero, List.take_succ_cons, List.take_zero]
  refine ⟨?_, ⟨d, _, rfl, hd⟩, ⟨'e', by simp, by decide⟩⟩
  simp only [List.forall_mem_append, List.forall_mem_cons, List.not_mem_nil, false_imp_iff,
    implies_true, and_true]
  refine ⟨⟨.inl hd, ?_⟩, .inr (by decide), ?_, isNumeralChar_signedDigits exponent⟩
  · split
    · simp
    · exact List.forall_mem_cons.2 ⟨.inr (by decide), isNumeralChar_of_digits htail⟩
  · split
    · exact List.forall_mem_cons.2 ⟨.inr (by decide), by simp⟩
    · simp

theorem isFractional_magnitudeChars (layout : FloatLayout) {steps : Nat} (h : Representable steps) :
    IsFractional (magnitudeChars layout steps) := by
  by_cases hpos : steps = 0
  · rw [magnitudeChars, if_pos hpos]
    exact isFractional_point (Text.allDigits_replicate_zero 1) (Text.allDigits_replicate_zero 1)
      (by simp)
  · obtain ⟨ds, k, last, hds, hne, -, hplain | hmark⟩ := exists_layout layout h hpos
    · rw [hplain]
      exact isFractional_positional hds hne _
    · rw [hmark]
      exact isFractional_exponential hds hne _ _

theorem read?_signedDigits (z : Int) :
    Binary64.read? (Text.signedDigits z) = some (ofScientific (z < 0) z.natAbs 0) := by
  have hsplit : Text.splitSign (Text.signedDigits z) = (decide (z < 0), Text.digits z.natAbs) := by
    unfold Text.signedDigits
    split
    · next h =>
      rw [decide_eq_true h]
      rfl
    · next h =>
      rw [decide_eq_false h]
      exact Text.splitSign_of_digits (allDigits_digits _)
  have hmantissa := @Scientific.splitMantissa_plain _ [] (allDigits_digits z.natAbs) (by simp)
  rw [List.append_nil] at hmantissa
  rw [Binary64.read?, Scientific.read?_of_split hsplit hmantissa (Text.digits_ne_nil _) rfl,
    Option.map_some, List.append_nil, Text.ofDigits_digits]
  rfl

theorem equal_self {x : Binary64} (h : x.isFinite = true) : x.equal x = true := by
  cases x with
  | finite => exact beq_iff_eq.2 (by simp [compare?, rank?])
  | _ => cases h

/-- A whole number is read back from its digits alone; only the sign of zero is lost. -/
theorem equal_read?_truncate {x : Binary64} (h : x.isWhole = true) :
    ∃ y, Binary64.read? (Text.signedDigits x.truncate) = some y ∧ x.equal y = true := by
  cases x with
  | nan => cases h
  | infinite => cases h
  | finite negative steps hsteps =>
    obtain ⟨n, hn⟩ : ∃ n, steps = n * unit :=
      ⟨steps / unit, (Nat.div_mul_cancel (Nat.dvd_of_mod_eq_zero (beq_iff_eq.1 h))).symm⟩
    have htruncate : truncate (.finite negative steps hsteps) = signed negative n := by
      rw [truncate, hn, Nat.mul_div_cancel n unit_pos]
    have hsize : (signed negative n).natAbs = n := by
      unfold signed
      split <;> omega
    rw [htruncate, read?_signedDigits, hsize]
    by_cases hzero : n = 0
    · obtain rfl : steps = 0 := by rw [hn, hzero, Nat.zero_mul]
      rw [ofScientific, if_pos hzero]
      refine ⟨_, rfl, ?_⟩
      generalize decide (signed negative n < 0) = sign
      cases negative <;> cases sign <;> rfl
    · have hnegative : decide (signed negative n < 0) = negative := by
        unfold signed
        cases negative with
        | true =>
          rw [if_pos rfl]
          exact decide_eq_true (by omega)
        | false =>
          rw [if_neg (by decide)]
          exact decide_eq_false (by omega)
      have hexponent : (0 : Int) = (0 : Nat) - (0 : Nat) := rfl
      refine ⟨_, rfl, ?_⟩
      rw [hnegative, ofScientific_eq_ofSteps hzero hexponent, Nat.pow_zero, Nat.mul_one, ← hn,
        ofSteps_of_representable hsteps]
      exact equal_self rfl

end Binary64

end ResourceQuery.Number
