import Mathlib.Algebra.Order.Ring.Int
import Mathlib.Tactic.Ring
import ResourceQuery.Number.Decimal.Basic

/-!
Addition of decimals where nothing has to be given up. Of the sums that cannot be shown with all
places of both sides many can be shown with fewer, because their last places are zeros. Addition
finds them: whatever a decimal can show as the sum is what comes out.
-/

set_option autoImplicit false

namespace ResourceQuery.Number.Decimal

variable {negative : Bool} {d a b : Decimal} {z : Int} {c s den scale : Nat}

theorem make?_of_fits (hc : c < coefficientBound) (hs : s ≤ maxScale) :
    make? negative c s = some ⟨negative, c, s, hc, hs⟩ :=
  dif_pos ⟨hc, hs⟩

theorem make?_of_le (hc : coefficientBound ≤ c) : make? negative c s = none :=
  dif_neg fun h ↦ absurd h.1 (Nat.not_lt_of_le hc)

theorem natAbs_signed (d : Decimal) : d.signed.natAbs = d.coefficient := by
  rw [signed]
  split <;> simp

theorem natAbs_numerator (d : Decimal) :
    d.numerator.natAbs = d.coefficient * 10 ^ (maxScale - d.scale) := by
  rw [numerator, Int.natAbs_mul, natAbs_signed, Int.natAbs_natCast, Nat.pow_eq]

/-- A decimal has a given value if it has its size and, unless that is zero, its sign. -/
theorem numerator_eq (hsign : d.negative = decide (z < 0))
    (hsize : d.coefficient * 10 ^ (maxScale - d.scale) = z.natAbs) : d.numerator = z := by
  rw [numerator, signed, hsign, Nat.pow_eq]
  by_cases hz : z < 0
  · rw [if_pos (decide_eq_true hz), Int.neg_mul, ← Int.natCast_mul, hsize]
    omega
  · rw [if_neg (by simpa using hz), ← Int.natCast_mul, hsize]
    omega

/-- The search for a scale comes to the end at a scale at which nothing is rounded: where a
coefficient with more places does not fit, it ends in a zero. -/
theorem nearest?_of_fits (hc : c < coefficientBound) (hs : s ≤ scale) (hscale : scale ≤ maxScale)
    (hden : 0 < den) :
    ∃ d, nearest? negative (c * 10 ^ (scale - s) * den) den scale = some d ∧
      d.negative = negative ∧ d.scale ≤ scale ∧
      d.coefficient * 10 ^ (scale - d.scale) = c * 10 ^ (scale - s) := by
  induction scale generalizing den with
  | zero =>
    rw [nearest?, roundHalfEven_mul_right _ hden, Nat.zero_sub, Nat.pow_zero, Nat.mul_one,
      make?_of_fits hc hscale]
    exact ⟨_, rfl, rfl, Nat.le_refl 0, Nat.mul_one c⟩
  | succ scale ih =>
    rw [nearest?, roundHalfEven_mul_right _ hden]
    by_cases hfits : c * 10 ^ (scale + 1 - s) < coefficientBound
    · rw [make?_of_fits hfits hscale]
      exact ⟨_, rfl, rfl, Nat.le_refl _, by rw [Nat.sub_self, Nat.pow_zero, Nat.mul_one]⟩
    · have hlt : s ≠ scale + 1 := by
        rintro rfl
        rw [Nat.sub_self, Nat.pow_zero, Nat.mul_one] at hfits
        exact hfits hc
      have hplaces : scale + 1 - s = scale - s + 1 := by omega
      -- a place is given up by a denominator ten times as large, which leaves the quotient whole
      have hnum : c * 10 ^ (scale + 1 - s) * den = c * 10 ^ (scale - s) * (10 * den) := by
        rw [hplaces, Nat.pow_succ]
        ring
      obtain ⟨d, hd, hsign, hle, hsize⟩ :=
        ih (by omega) (by omega) (Nat.mul_pos (by decide : 0 < 10) hden)
      rw [make?_of_le (Nat.le_of_not_lt hfits), hnum, hd]
      refine ⟨d, rfl, hsign, Nat.le_succ_of_le hle, ?_⟩
      rw [hplaces, Nat.succ_sub hle, Nat.pow_succ, Nat.pow_succ, ← Nat.mul_assoc, hsize,
        Nat.mul_assoc]

/-- A size that a decimal can show, and that is whole at some scale, is shown there or with fewer
places. -/
theorem exists_places {e : Decimal} {n : Nat}
    (h : e.coefficient * 10 ^ (maxScale - e.scale) = n * 10 ^ (maxScale - scale))
    (hscale : scale ≤ maxScale) :
    ∃ c s, c < coefficientBound ∧ s ≤ scale ∧ n = c * 10 ^ (scale - s) := by
  have hpos : ∀ k, 0 < 10 ^ k := fun k ↦ Nat.pow_pos (by decide)
  obtain hlt | hle := Nat.lt_or_ge scale e.scale
  · have hcoefficient : e.coefficient = n * 10 ^ (e.scale - scale) := by
      refine Nat.eq_of_mul_eq_mul_right (hpos (maxScale - e.scale)) (h.trans ?_)
      rw [Nat.mul_assoc, ← Nat.pow_add, Nat.add_comm,
        Nat.sub_add_sub_cancel e.scale_le (Nat.le_of_lt hlt)]
    refine ⟨n, scale, Nat.lt_of_le_of_lt ?_ e.coefficient_lt, Nat.le_refl _, ?_⟩
    · rw [hcoefficient]
      exact Nat.le_mul_of_pos_right n (hpos _)
    · rw [Nat.sub_self, Nat.pow_zero, Nat.mul_one]
  · refine ⟨e.coefficient, e.scale, e.coefficient_lt, hle, ?_⟩
    refine Nat.eq_of_mul_eq_mul_right (hpos (maxScale - scale)) (h.symm.trans ?_)
    rw [Nat.mul_assoc, ← Nat.pow_add, Nat.add_comm, Nat.sub_add_sub_cancel hscale hle]

/-- Both sides of a sum with the places of the one that has more. -/
theorem numerator_align (hle : d.scale ≤ scale) (hscale : scale ≤ maxScale) :
    d.numerator = d.signed * (10 ^ (scale - d.scale) : Nat) * (10 ^ (maxScale - scale) : Nat) := by
  rw [numerator, Nat.pow_eq, Int.mul_assoc, ← Int.natCast_mul, ← Nat.pow_add, Nat.add_comm,
    Nat.sub_add_sub_cancel hscale hle]

/-- A sum that a decimal can show is found. -/
theorem add?_exact (h : ∃ e : Decimal, e.numerator = a.numerator + b.numerator) :
    ∃ d, a.add? b = some d ∧ d.numerator = a.numerator + b.numerator := by
  obtain ⟨e, he⟩ := h
  rw [add?]
  split
  · next ha => exact ⟨b, rfl, by simp [numerator, signed, ha]⟩
  split
  · next hb => exact ⟨a, rfl, by simp [numerator, signed, hb]⟩
  extract_lets scale total
  have hscale : scale ≤ maxScale := Nat.max_le.2 ⟨a.scale_le, b.scale_le⟩
  have hsum : a.numerator + b.numerator = total * (10 ^ (maxScale - scale) : Nat) := by
    rw [numerator_align (Nat.le_max_left a.scale b.scale) hscale,
      numerator_align (Nat.le_max_right a.scale b.scale) hscale, ← Int.add_mul]
    rfl
  have hsize : (a.numerator + b.numerator).natAbs = total.natAbs * 10 ^ (maxScale - scale) := by
    rw [hsum, Int.natAbs_mul, Int.natAbs_natCast]
  rw [← he, natAbs_numerator] at hsize
  obtain ⟨c, s, hc, hs, hn⟩ := exists_places hsize hscale
  obtain ⟨d, hd, hsign, hle, hshown⟩ :=
    @nearest?_of_fits (decide (total < 0)) c s 1 scale hc hs hscale Nat.one_pos
  rw [← hn, Nat.mul_one] at hd
  refine ⟨d, hd, numerator_eq ?_ ?_⟩
  · have hpos : (0 : Int) < (10 ^ (maxScale - scale) : Nat) :=
      Int.natCast_pos.2 (Nat.pow_pos (by decide))
    rw [hsign, hsum, decide_eq_decide]
    exact ⟨fun h ↦ mul_neg_of_neg_of_pos h hpos, fun h ↦ neg_of_mul_neg_left h hpos.le⟩
  · rw [← he, natAbs_numerator, hsize, hn, ← hshown, Nat.mul_assoc, ← Nat.pow_add, Nat.add_comm,
      Nat.sub_add_sub_cancel hscale hle]

end ResourceQuery.Number.Decimal
