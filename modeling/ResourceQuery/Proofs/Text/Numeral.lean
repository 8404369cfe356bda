import Mathlib.Algebra.Ring.Nat
import ResourceQuery.Text.Numeral

/-!
Numerals read back. A run of digits stands for the same number with zeros in front, and for ten
times the number with a zero behind; a sign and digits are read as the integer they were written
for.
-/

set_option autoImplicit false

namespace ResourceQuery.Text

def AllDigits (cs : List Char) : Prop :=
  ∀ c ∈ cs, c.isDigit = true

theorem AllDigits.append {cs ds : List Char} (h : AllDigits cs) (h' : AllDigits ds) :
    AllDigits (cs ++ ds) := by
  intro c hc
  exact (List.mem_append.1 hc).elim (h c) (h' c)

theorem allDigits_digits (n : Nat) : AllDigits (digits n) :=
  fun _ ↦ isDigit_of_mem_digits

theorem allDigits_replicate_zero (n : Nat) : AllDigits (List.replicate n '0') := by
  intro c hc
  rw [List.eq_of_mem_replicate hc]
  decide

theorem digits_ne_nil (n : Nat) : digits n ≠ [] :=
  Nat.toDigits_ne_nil

theorem length_digits_le {n k : Nat} (hk : 0 < k) (h : n < 10 ^ k) : (digits n).length ≤ k :=
  (Nat.length_toDigits_le_iff (by decide) hk).2 h

theorem ofDigits_append (cs ds : List Char) :
    ofDigits (cs ++ ds) = 10 ^ ds.length * ofDigits cs + ofDigits ds := by
  rw [ofDigits, Nat.ofDigitChars_append, Nat.ofDigitChars_eq_ofDigitChars_zero]
  rfl

theorem ofDigits_zeros_append (n : Nat) (cs : List Char) :
    ofDigits (List.replicate n '0' ++ cs) = ofDigits cs := by
  rw [ofDigits, Nat.ofDigitChars_append, Nat.ofDigitChars_replicate_zero, Nat.mul_zero]
  rfl

theorem ofDigits_append_zeros (n : Nat) (cs : List Char) :
    ofDigits (cs ++ List.replicate n '0') = 10 ^ n * ofDigits cs := by
  rw [ofDigits, Nat.ofDigitChars_append, Nat.ofDigitChars_replicate_zero]
  rfl

theorem paddedDigits_eq (width n : Nat) :
    paddedDigits width n = List.replicate (width - (digits n).length) '0' ++ digits n :=
  rfl

theorem allDigits_paddedDigits (width n : Nat) : AllDigits (paddedDigits width n) := by
  rw [paddedDigits_eq]
  exact (allDigits_replicate_zero _).append (allDigits_digits n)

theorem ofDigits_paddedDigits (width n : Nat) : ofDigits (paddedDigits width n) = n := by
  rw [paddedDigits_eq, ofDigits_zeros_append, ofDigits_digits]

theorem le_length_paddedDigits (width n : Nat) : width ≤ (paddedDigits width n).length := by
  rw [paddedDigits_eq, List.length_append, List.length_replicate]
  omega

theorem length_paddedDigits {width n : Nat} (hwidth : 0 < width) (h : n < 10 ^ width) :
    (paddedDigits width n).length = width := by
  have := length_digits_le hwidth h
  rw [paddedDigits_eq, List.length_append, List.length_replicate]
  omega

/-- A run of digits ends where something else follows. -/
theorem takeWhile_digits_append {ds rest : List Char} (hds : AllDigits ds)
    (hrest : ∀ c ∈ rest.head?, c.isDigit = false) :
    (ds ++ rest).takeWhile Char.isDigit = ds ∧ (ds ++ rest).dropWhile Char.isDigit = rest := by
  rw [List.takeWhile_append_of_pos hds, List.dropWhile_append_of_pos hds]
  cases rest with
  | nil => simp
  | cons c rest =>
    have hc := hrest c rfl
    simp [hc]

theorem splitSign_of_digit {c : Char} {cs : List Char} (h : c.isDigit = true) :
    splitSign (c :: cs) = (false, c :: cs) := by
  unfold splitSign
  split
  · next heq =>
    obtain ⟨rfl, _⟩ := List.cons.inj heq
    cases h
  · next heq =>
    obtain ⟨rfl, _⟩ := List.cons.inj heq
    cases h
  · rfl

theorem splitSign_of_digits {cs : List Char} (h : AllDigits cs) : splitSign cs = (false, cs) := by
  cases cs with
  | nil => rfl
  | cons c cs => exact splitSign_of_digit (h c List.mem_cons_self)

theorem readInt?_of_digits {cs ds : List Char} {negative : Bool}
    (hsplit : splitSign cs = (negative, ds)) (hne : ds ≠ []) (hds : AllDigits ds) :
    readInt? cs = some (withSign negative (ofDigits ds)) := by
  rw [readInt?, hsplit]
  dsimp only
  rw [if_neg]
  unfold AllDigits at hds
  simpa [List.isEmpty_iff, hne] using hds

theorem readInt?_signedDigits (z : Int) : readInt? (signedDigits z) = some z := by
  unfold signedDigits
  split
  · next h =>
    have hsplit : splitSign ('-' :: digits z.natAbs) = (true, digits z.natAbs) := rfl
    rw [readInt?_of_digits hsplit (digits_ne_nil _) (allDigits_digits _), ofDigits_digits, withSign,
      if_pos rfl]
    congr 1
    omega
  · next h =>
    rw [readInt?_of_digits (splitSign_of_digits (allDigits_digits _)) (digits_ne_nil _)
      (allDigits_digits _), ofDigits_digits, withSign, if_neg (by decide)]
    congr 1
    omega

theorem readInt?_plus_signedDigits {z : Int} (h : 0 ≤ z) :
    readInt? ('+' :: signedDigits z) = some z := by
  have hsplit : splitSign ('+' :: digits z.natAbs) = (false, digits z.natAbs) := rfl
  rw [signedDigits, if_neg (Int.not_lt.2 h),
    readInt?_of_digits hsplit (digits_ne_nil _) (allDigits_digits _), ofDigits_digits, withSign,
    if_neg (by decide)]
  congr 1
  omega

theorem signedDigits_eq (z : Int) :
    signedDigits z = (if decide (z < 0) then ['-'] else []) ++ digits z.natAbs := by
  unfold signedDigits
  by_cases h : z < 0
  · rw [if_pos h, if_pos (decide_eq_true h)]
    rfl
  · rw [if_neg h, if_neg (by simpa using h)]
    rfl

theorem readInt64?_int64Digits (n : Int64) : readInt64? (int64Digits n) = some n := by
  rw [readInt64?, int64Digits, readInt?_signedDigits, Option.bind_some, Number.int64?_toInt]

end ResourceQuery.Text
