import ResourceQuery.Number.Decimal.Text
import ResourceQuery.Proofs.Text.Numeral

/-!
The text of a decimal reads back as the same decimal, its places included; only the sign of zero is
lost.
-/

set_option autoImplicit false

namespace ResourceQuery.Number.Decimal

open Text (AllDigits)

/-- The decimal without a sign on zero. -/
def unsignedZero (d : Decimal) : Decimal :=
  { d with negative := d.negative && d.coefficient != 0 }

theorem numerator_unsignedZero (d : Decimal) : d.unsignedZero.numerator = d.numerator := by
  by_cases h : d.coefficient = 0
  · simp [unsignedZero, numerator, signed, h]
  · simp [unsignedZero, numerator, signed, h]

theorem ofParts?_eq (d : Decimal) :
    ofParts? d.negative d.coefficient d.scale = some d.unsignedZero := by
  rw [ofParts?, make?, dif_pos ⟨d.coefficient_lt, d.scale_le⟩]
  rfl

theorem readUnsigned?_digit {negative : Bool} {p : Progress} {c : Char} {n scale : Nat}
    (hc : c.isDigit = true) (hn : n = 10 * p.coefficient + Text.ofDigits [c])
    (hscale : scale = if p.pointed then p.scale + 1 else 0) (hfit : n < coefficientBound)
    (hroom : scale ≤ maxScale) (rest : List Char) :
    readUnsigned? negative p (c :: rest) =
      readUnsigned? negative ⟨n, scale, p.pointed, true⟩ rest := by
  rw [readUnsigned?, if_pos hc]
  dsimp only
  rw [← hn, ← hscale, if_pos ⟨hfit, hroom⟩]

/-- Digits that fit are added to what has been read. -/
theorem readUnsigned?_digits {negative : Bool} {cs : List Char} (hcs : AllDigits cs)
    {p : Progress} {n scale : Nat} (hn : n = 10 ^ cs.length * p.coefficient + Text.ofDigits cs)
    (hscale : scale = p.scale + if p.pointed then cs.length else 0) (hfit : n < coefficientBound)
    (hroom : scale ≤ maxScale) (hpoint : p.pointed = false → p.scale = 0) (rest : List Char) :
    readUnsigned? negative p (cs ++ rest) =
      readUnsigned? negative ⟨n, scale, p.pointed, p.started || !cs.isEmpty⟩ rest := by
  induction cs generalizing p with
  | nil =>
    have hn' : n = p.coefficient := by simpa [Text.ofDigits] using hn
    have hscale' : scale = p.scale := by simpa using hscale
    simp [hn', hscale']
  | cons c cs ih =>
    have hdigits : Text.ofDigits (c :: cs) =
        10 ^ cs.length * Text.ofDigits [c] + Text.ofDigits cs :=
      Text.ofDigits_append [c] cs
    have hvalue : n = 10 ^ cs.length * (10 * p.coefficient + Text.ofDigits [c]) +
        Text.ofDigits cs := by
      rw [hn, hdigits, List.length_cons, Nat.pow_succ, Nat.mul_add, Nat.mul_assoc, Nat.add_assoc]
    have hprefix : 10 * p.coefficient + Text.ofDigits [c] < coefficientBound := by
      refine Nat.lt_of_le_of_lt ?_ hfit
      rw [hvalue]
      exact Nat.le_trans (Nat.le_mul_of_pos_left _ (Nat.pow_pos (by decide))) (Nat.le_add_right _ _)
    have hplaces : scale = (if p.pointed then p.scale + 1 else 0) +
        if p.pointed then cs.length else 0 := by
      rw [hscale, List.length_cons]
      cases hp : p.pointed with
      | false => simp [hpoint hp]
      | true =>
        simp only [if_true]
        omega
    rw [List.cons_append, readUnsigned?_digit (hcs c List.mem_cons_self) rfl rfl hprefix (by omega),
      ih (fun d hd ↦ hcs d (List.mem_cons_of_mem c hd)) hvalue hplaces ?_]
    · simp
    · intro hp
      exact if_neg (Bool.eq_false_iff.1 hp)

theorem readUnsigned?_point {negative : Bool} {p : Progress} (h : p.pointed = false)
    (rest : List Char) :
    readUnsigned? negative p ('.' :: rest) =
      readUnsigned? negative { p with pointed := true } rest := by
  rw [readUnsigned?, if_neg (by decide), if_pos ⟨rfl, by simp [h]⟩]

/-- The digits of a number with a point before the last `scale` of them. -/
theorem readUnsigned?_pointed {d : Decimal} {whole places : List Char} (hwhole : AllDigits whole)
    (hplaces : AllDigits places) (hne : whole ≠ [])
    (hvalue : Text.ofDigits (whole ++ places) = d.coefficient) (hlength : places.length = d.scale) :
    readUnsigned? d.negative {} (whole ++ if d.scale = 0 then [] else '.' :: places) =
      some d.unsignedZero := by
  have hsum := Text.ofDigits_append whole places
  rw [hvalue] at hsum
  have hlow : Text.ofDigits whole < coefficientBound := by
    refine Nat.lt_of_le_of_lt ?_ d.coefficient_lt
    rw [hsum]
    exact Nat.le_trans (Nat.le_mul_of_pos_left _ (Nat.pow_pos (by decide))) (Nat.le_add_right _ _)
  have hstarted : whole.isEmpty = false := by simpa [List.isEmpty_iff] using hne
  rw [readUnsigned?_digits hwhole (by simp) (by simp) hlow (Nat.zero_le _) (fun _ ↦ rfl), hstarted]
  split
  · next hscale =>
    obtain rfl : places = [] := List.length_eq_zero_iff.1 (hlength.trans hscale)
    rw [List.append_nil] at hvalue
    rw [readUnsigned?, hvalue, ← hscale]
    exact ofParts?_eq d
  · rw [readUnsigned?_point rfl]
    have hread := @readUnsigned?_digits d.negative places hplaces
      ⟨Text.ofDigits whole, 0, true, true⟩ _ d.scale hsum (by simp [hlength]) d.coefficient_lt
      d.scale_le (fun hp ↦ by cases hp) []
    rw [List.append_nil] at hread
    refine hread.trans ?_
    rw [readUnsigned?]
    exact ofParts?_eq d

/-- No decimal text has a sign apart from the one that it starts with. -/
theorem readPlain?_signed {negative : Bool} {unsigned : List Char}
    (h : ∀ c ∈ unsigned.head?, c.isDigit = true) :
    readPlain? ((if negative then ['-'] else []) ++ unsigned) =
      readUnsigned? negative {} unsigned := by
  have hsplit : Text.splitSign ((if negative then ['-'] else []) ++ unsigned) =
      (negative, unsigned) := by
    cases negative with
    | true => rfl
    | false =>
      cases unsigned with
      | nil => rfl
      | cons c cs => exact Text.splitSign_of_digit (h c rfl)
  rw [readPlain?, hsplit]

theorem read?_chars (d : Decimal) : read? d.chars = some d.unsignedZero := by
  unfold chars
  extract_lets ds whole
  have hdigits : AllDigits ds := Text.allDigits_paddedDigits (d.scale + 1) d.coefficient
  have hlength : d.scale + 1 ≤ ds.length := Text.le_length_paddedDigits (d.scale + 1) d.coefficient
  have hvalue : Text.ofDigits (ds.take whole ++ ds.drop whole) = d.coefficient := by
    rw [List.take_append_drop]
    exact Text.ofDigits_paddedDigits (d.scale + 1) d.coefficient
  have hwhole : AllDigits (ds.take whole) := fun c hc ↦ hdigits c (List.mem_of_mem_take hc)
  have hplaces : AllDigits (ds.drop whole) := fun c hc ↦ hdigits c (List.mem_of_mem_drop hc)
  have hscale : (ds.drop whole).length = d.scale := by
    rw [List.length_drop]
    omega
  have hne : ds.take whole ≠ [] := by
    rw [← List.length_pos_iff, List.length_take]
    omega
  have hhead : ∀ c ∈ (ds.take whole ++
      if d.scale = 0 then [] else '.' :: ds.drop whole).head?, c.isDigit = true := by
    obtain ⟨c, cs, hcons⟩ := List.exists_cons_of_ne_nil hne
    rw [hcons] at hwhole ⊢
    rintro _ ⟨⟩
    exact hwhole c List.mem_cons_self
  rw [read?, List.append_assoc, readPlain?_signed hhead,
    readUnsigned?_pointed hwhole hplaces hne hvalue hscale]
  rfl

end ResourceQuery.Number.Decimal
