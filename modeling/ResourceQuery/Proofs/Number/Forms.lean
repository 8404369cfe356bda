import ResourceQuery.Proofs.Number.Shortest

/-!
The forms of numerals. An integer is written as digits behind an optional sign; other numbers may
have a point among their digits and an exponent behind them. The readers take the texts of these
forms and no others, and find the number that each of them denotes.
-/

set_option autoImplicit false

namespace ResourceQuery

namespace Text

/-- A text with an optional sign in front of its rest. The flag tells whether this is a minus. -/
inductive Signed : Bool → List Char → List Char → Prop
  | bare (cs : List Char) : Signed false cs cs
  | plus (cs : List Char) : Signed false cs ('+' :: cs)
  | minus (cs : List Char) : Signed true cs ('-' :: cs)

/-- An optional sign and one or more digits. -/
inductive IntegerText : Int → List Char → Prop
  | intro {negative : Bool} {ds cs : List Char} :
      Signed negative ds cs → AllDigits ds → ds ≠ [] →
      IntegerText (withSign negative (ofDigits ds)) cs

theorem signed_splitSign (cs : List Char) : Signed (splitSign cs).1 (splitSign cs).2 cs := by
  unfold splitSign
  split
  · exact .plus _
  · exact .minus _
  · exact .bare _

/-- A sign is taken off where one is written, if what is behind it has none. -/
theorem splitSign_of_signed {negative : Bool} {ds cs : List Char} (h : Signed negative ds cs)
    (hhead : ∀ c ∈ ds.head?, c ∉ ['+', '-']) : splitSign cs = (negative, ds) := by
  cases h with
  | plus => rfl
  | minus => rfl
  | bare =>
    unfold splitSign
    split
    · exact absurd List.mem_cons_self (hhead '+' rfl)
    · exact absurd (List.mem_cons_of_mem _ List.mem_cons_self) (hhead '-' rfl)
    · rfl

theorem not_mem_signs_of_isDigit {c : Char} (h : c.isDigit = true) : c ∉ ['+', '-'] := by
  rintro hc
  obtain rfl | rfl : c = '+' ∨ c = '-' := by simpa using hc
  · cases h
  · cases h

theorem readInt?_eq_some_iff {cs : List Char} {z : Int} :
    readInt? cs = some z ↔ IntegerText z cs := by
  constructor
  · intro h
    have hsign := signed_splitSign cs
    rw [readInt?] at h
    generalize splitSign cs = sign at h hsign
    obtain ⟨negative, ds⟩ := sign
    dsimp only at h hsign
    split at h
    · cases h
    · next hdigits =>
      rw [Bool.or_eq_true, not_or, List.isEmpty_iff, Bool.not_eq_true', Bool.not_eq_false,
        List.all_eq_true] at hdigits
      obtain rfl := Option.some.inj h
      exact .intro hsign hdigits.2 hdigits.1
  · rintro ⟨hsign, hds, hne⟩
    refine readInt?_of_digits (splitSign_of_signed hsign fun c hc ↦ ?_) hne hds
    exact not_mem_signs_of_isDigit (hds c (List.mem_of_mem_head? hc))

theorem readInt64?_eq_some_iff {cs : List Char} {n : Int64} :
    readInt64? cs = some n ↔ IntegerText n.toInt cs := by
  rw [readInt64?, Option.bind_eq_some_iff]
  constructor
  · rintro ⟨z, hz, hn⟩
    rw [Number.toInt_of_int64? hn]
    exact readInt?_eq_some_iff.1 hz
  · intro h
    exact ⟨n.toInt, readInt?_eq_some_iff.2 h, Number.int64?_toInt n⟩

end Text

namespace Number

open Text (AllDigits Signed IntegerText)

/-- The digits in front of a point and behind it, some of them on at least one side. Without digits
behind it, the point may be left out. -/
inductive MantissaText : List Char → List Char → List Char → Prop
  | pointed {whole fraction : List Char} :
      AllDigits whole → whole ≠ [] → AllDigits fraction →
      MantissaText whole fraction (whole ++ '.' :: fraction)
  | fractional {fraction : List Char} :
      AllDigits fraction → fraction ≠ [] → MantissaText [] fraction ('.' :: fraction)
  | plain {whole : List Char} : AllDigits whole → whole ≠ [] → MantissaText whole [] whole

/-- Nothing, or a mark and an integer behind it. -/
inductive ExponentText : Int → List Char → Prop
  | absent : ExponentText 0 []
  | marked {mark : Char} {cs : List Char} {z : Int} :
      mark ∈ ['e', 'E'] → IntegerText z cs → ExponentText z (mark :: cs)

/-- An optional sign, a mantissa and an optional exponent. -/
inductive DecimalText : Scientific → List Char → Prop
  | intro {negative : Bool} {whole fraction mantissa tail cs : List Char} {exponent : Int} :
      Signed negative (mantissa ++ tail) cs → MantissaText whole fraction mantissa →
      ExponentText exponent tail →
      DecimalText ⟨negative, Text.ofDigits (whole ++ fraction), exponent - fraction.length⟩ cs

/-- An integer has the form of every number. -/
theorem exists_decimalText_of_integerText {z : Int} {cs : List Char} (h : IntegerText z cs) :
    ∃ s, DecimalText s cs := by
  obtain @⟨negative, ds, _, hsign, hds, hne⟩ := h
  rw [← List.append_nil ds] at hsign
  exact ⟨_, .intro hsign (.plain hds hne) .absent⟩

namespace MantissaText

variable {whole fraction mantissa : List Char}

theorem digits_ne_nil (h : MantissaText whole fraction mantissa) :
    ¬ (whole = [] ∧ fraction = []) := by
  cases h with
  | pointed _ hne _ => exact fun hnil ↦ hne hnil.1
  | fractional _ hne => exact fun hnil ↦ hne hnil.2
  | plain _ hne => exact fun hnil ↦ hne hnil.1

/-- A mantissa starts with a digit or with its point. -/
theorem head_not_mem_signs (h : MantissaText whole fraction mantissa) (rest : List Char) :
    ∀ c ∈ (mantissa ++ rest).head?, c ∉ ['+', '-'] := by
  have hdigits {ds : List Char} (hds : AllDigits ds) (hne : ds ≠ []) (behind : List Char) :
      ∀ c ∈ (ds ++ behind).head?, c ∉ ['+', '-'] := by
    obtain ⟨d, ds, rfl⟩ := List.exists_cons_of_ne_nil hne
    rintro _ ⟨⟩
    exact Text.not_mem_signs_of_isDigit (hds d List.mem_cons_self)
  cases h with
  | pointed hwhole hne _ =>
    rw [List.append_assoc]
    exact hdigits hwhole hne _
  | fractional =>
    rintro _ ⟨⟩
    decide
  | plain hwhole hne => exact hdigits hwhole hne rest

end MantissaText

/-- An exponent starts with its mark, if there is one. -/
theorem ExponentText.head_not_digit {z : Int} {cs : List Char} (h : ExponentText z cs) :
    ∀ c ∈ cs.head?, c.isDigit = false ∧ c ≠ '.' := by
  cases h with
  | absent => exact fun _ hc ↦ nomatch hc
  | @marked mark _ _ hmark =>
    rintro _ ⟨⟩
    obtain rfl | rfl : mark = 'e' ∨ mark = 'E' := by simpa using hmark
    · exact ⟨rfl, by decide⟩
    · exact ⟨rfl, by decide⟩

namespace Scientific

theorem readExponent?_eq_some_iff {cs : List Char} {z : Int} :
    readExponent? cs = some z ↔ ExponentText z cs := by
  cases cs with
  | nil =>
    constructor
    · rintro ⟨⟩
      exact .absent
    · rintro ⟨⟩
      rfl
  | cons c cs =>
    rw [readExponent?]
    constructor
    · intro h
      split at h
      · next hmark => exact .marked (by simpa using hmark) (Text.readInt?_eq_some_iff.1 h)
      · cases h
    · rintro (_ | ⟨hmark, hexponent⟩)
      rw [if_pos (by simpa using hmark), Text.readInt?_eq_some_iff.2 hexponent]

theorem mantissaText_of_split {cs whole fraction rest : List Char}
    (h : splitMantissa cs = (whole, fraction, rest)) (hne : ¬ (whole = [] ∧ fraction = [])) :
    ∃ mantissa, cs = mantissa ++ rest ∧ MantissaText whole fraction mantissa := by
  have hdigits (ds : List Char) : AllDigits (ds.takeWhile Char.isDigit) :=
    fun c hc ↦ List.mem_takeWhile_imp hc
  have hcs := List.takeWhile_append_dropWhile (p := Char.isDigit) (l := cs)
  rw [splitMantissa] at h
  split at h
  · next behind hpoint =>
    have hbehind := List.takeWhile_append_dropWhile (p := Char.isDigit) (l := behind)
    cases h
    rw [hpoint, ← hbehind] at hcs
    by_cases hwhole : cs.takeWhile Char.isDigit = []
    · rw [hwhole] at hcs hne ⊢
      refine ⟨_, hcs.symm, .fractional (hdigits _) fun hfraction ↦ hne ⟨rfl, hfraction⟩⟩
    · refine ⟨_, ?_, .pointed (hdigits _) hwhole (hdigits behind)⟩
      rw [List.append_assoc, List.cons_append]
      exact hcs.symm
  · cases h
    exact ⟨_, hcs.symm, .plain (hdigits _) fun hwhole ↦ hne ⟨hwhole, rfl⟩⟩

theorem splitMantissa_of_text {whole fraction mantissa rest : List Char}
    (h : MantissaText whole fraction mantissa)
    (hrest : ∀ c ∈ rest.head?, c.isDigit = false ∧ c ≠ '.') :
    splitMantissa (mantissa ++ rest) = (whole, fraction, rest) := by
  cases h with
  | pointed hwhole _ hfraction =>
    rw [List.append_assoc, List.cons_append]
    exact splitMantissa_point hwhole hfraction fun c hc ↦ (hrest c hc).1
  | fractional hfraction _ =>
    exact splitMantissa_point (List.forall_mem_nil _) hfraction fun c hc ↦ (hrest c hc).1
  | plain hwhole _ => exact splitMantissa_plain hwhole hrest

theorem read?_eq_some_iff {cs : List Char} {s : Scientific} :
    read? cs = some s ↔ DecimalText s cs := by
  constructor
  · intro h
    have hsign := Text.signed_splitSign cs
    rw [read?] at h
    generalize Text.splitSign cs = sign at h hsign
    obtain ⟨negative, unsigned⟩ := sign
    dsimp only at h hsign
    rcases hsplit : splitMantissa unsigned with ⟨whole, fraction, rest⟩
    rw [hsplit] at h
    dsimp only at h
    split at h
    · cases h
    · next hne =>
      obtain ⟨exponent, hexponent, rfl⟩ := Option.map_eq_some_iff.1 h
      obtain ⟨mantissa, rfl, hmantissa⟩ := mantissaText_of_split hsplit (by simpa using hne)
      exact .intro hsign hmantissa (readExponent?_eq_some_iff.1 hexponent)
  · rintro ⟨hsign, hmantissa, hexponent⟩
    have hsplit := Text.splitSign_of_signed hsign (hmantissa.head_not_mem_signs _)
    rw [read?, hsplit]
    dsimp only
    rw [splitMantissa_of_text hmantissa hexponent.head_not_digit]
    dsimp only
    rw [if_neg (by simpa using hmantissa.digits_ne_nil), readExponent?_eq_some_iff.2 hexponent,
      Option.map_some]

end Scientific

end Number

end ResourceQuery
