import Mathlib.Algebra.Ring.Nat
import ResourceQuery.Number.Binary64

/-!
The double-precision number of `digits * 10 ^ exponent` depends on the value alone, not on how it is
split into digits and exponent. Rounding knows only the quotient, and the exponents that are settled
without computing their power of ten are those where rounding gives zero or leaves the range.
-/

set_option autoImplicit false

namespace ResourceQuery.Number

theorem roundHalfEven_mul_mul (num den : Nat) {k : Nat} (hk : 0 < k) :
    roundHalfEven (num * k) (den * k) = roundHalfEven num den := by
  have hdouble : 2 * (num * k % (den * k)) = 2 * (num % den) * k := by
    rw [Nat.mul_mod_mul_right, Nat.mul_assoc]
  have hlt : 2 * (num % den) * k < den * k ↔ 2 * (num % den) < den := Nat.mul_lt_mul_right hk
  have heq : 2 * (num % den) * k = den * k ↔ 2 * (num % den) = den :=
    Nat.mul_left_inj (Nat.pos_iff_ne_zero.1 hk)
  simp only [roundHalfEven, Nat.mul_div_mul_right _ _ hk, hdouble, hlt, heq]

namespace Binary64

theorem unit_pos : 0 < unit := by
  decide +kernel

theorem bound_pos : 0 < bound := by
  decide +kernel

theorem gap_pos (floor : Nat) : 0 < gap floor :=
  Nat.two_pow_pos _

theorem nearestSteps_mul_mul (num den : Nat) {k : Nat} (hk : 0 < k) :
    nearestSteps (num * k) (den * k) = nearestSteps num den := by
  rw [nearestSteps, nearestSteps, Nat.mul_div_mul_right _ _ hk, Nat.mul_right_comm,
    roundHalfEven_mul_mul _ _ hk]

theorem ofSteps_congr {num den num' den' : Nat} (h : nearestSteps num den = nearestSteps num' den')
    (negative : Bool) : ofSteps negative num den = ofSteps negative num' den' := by
  unfold ofSteps
  simp only [h]

/-- Equal quotients are rounded alike. -/
theorem ofSteps_eq_of_mul_eq {num den num' den' : Nat} (hden : 0 < den) (hden' : 0 < den')
    (h : num * den' = num' * den) (negative : Bool) :
    ofSteps negative num den = ofSteps negative num' den' := by
  refine ofSteps_congr ?_ negative
  calc nearestSteps num den
    _ = nearestSteps (num * den') (den * den') := (nearestSteps_mul_mul num den hden').symm
    _ = nearestSteps (num' * den) (den' * den) := by rw [h, Nat.mul_comm den den']
    _ = nearestSteps num' den' := nearestSteps_mul_mul num' den' hden

/-- A count that can be represented is its own rounding. -/
theorem nearestSteps_of_coarse {steps : Nat} (h : gap steps ∣ steps) :
    nearestSteps steps 1 = steps := by
  rw [nearestSteps, Nat.div_one, Nat.one_mul]
  obtain ⟨k, hk⟩ := h
  have hround : roundHalfEven (gap steps * k) (gap steps) = k := by
    rw [Nat.mul_comm]
    exact roundHalfEven_mul_right k (gap_pos steps)
  rw [← hk] at hround
  rw [hround, Nat.mul_comm, ← hk]

theorem ofSteps_of_representable {steps : Nat} (h : Representable steps) (negative : Bool) :
    ofSteps negative steps 1 = .finite negative steps h := by
  have hround := nearestSteps_of_coarse h.coarse
  have hbound : nearestSteps steps 1 < bound := by
    rw [hround]
    exact h.lt_bound
  rw [ofSteps, dif_pos hbound]
  congr 1

/-- Rounding does not leave the power of two that a quotient has reached. -/
theorem two_pow_log2_le_nearestSteps {num den : Nat} (h : num / den ≠ 0) :
    2 ^ (num / den).log2 ≤ nearestSteps num den := by
  have hfloor := Nat.log2_self_le h
  have hgap : 2 ^ ((num / den).log2 - 52) ∣ 2 ^ (num / den).log2 :=
    Nat.pow_dvd_pow 2 (Nat.sub_le _ _)
  have hpos : 0 < 2 ^ ((num / den).log2 - 52) := Nat.two_pow_pos _
  rw [nearestSteps, gap, Nat.pow_eq]
  generalize 2 ^ ((num / den).log2 - 52) = g at hgap hpos ⊢
  generalize 2 ^ (num / den).log2 = power at hfloor hgap ⊢
  obtain ⟨k, rfl⟩ := hgap
  have hk : k ≤ roundHalfEven num (den * g) := by
    refine Nat.le_trans ?_ (div_le_roundHalfEven num (den * g))
    rw [← Nat.div_div_eq_div_mul, Nat.le_div_iff_mul_le hpos, Nat.mul_comm]
    exact hfloor
  rw [Nat.mul_comm]
  exact Nat.mul_le_mul_right g hk

/-- A quotient beyond the range is rounded beyond it. -/
theorem ofSteps_of_bound_le {num den : Nat} (h : bound ≤ num / den) (negative : Bool) :
    ofSteps negative num den = .infinite negative := by
  have hne : num / den ≠ 0 := Nat.pos_iff_ne_zero.1 (Nat.lt_of_lt_of_le bound_pos h)
  have hpower : bound = 2 ^ bound.log2 := by decide +kernel
  have hlog : bound.log2 ≤ (num / den).log2 := (Nat.le_log2 hne).2 (hpower ▸ h)
  have hround : bound ≤ nearestSteps num den := by
    rw [hpower]
    exact Nat.le_trans (Nat.pow_le_pow_right (by decide) hlog) (two_pow_log2_le_nearestSteps hne)
  rw [ofSteps, dif_neg (Nat.not_lt.2 hround)]

/-- A quotient below a half is rounded to zero. -/
theorem ofSteps_of_double_lt {num den : Nat} (h : 2 * num < den) (negative : Bool) :
    ofSteps negative num den = zero negative := by
  have hfloor : num / den = 0 := Nat.div_eq_of_lt (by omega)
  have hgap : gap 0 = 1 := by decide
  have hround : nearestSteps num den = 0 := by
    rw [nearestSteps, hfloor, hgap, Nat.mul_one, Nat.mul_one, roundHalfEven, hfloor,
      Nat.mod_eq_of_lt (by omega)]
    exact if_pos (.inl h)
  have hbound : nearestSteps num den < bound := by
    rw [hround]
    exact bound_pos
  rw [ofSteps, dif_pos hbound, zero]
  congr 1

/-- No finite number is as large as a power of ten that is settled without being computed. -/
theorem bound_le_of_exponent {digits exponent : Nat} (hdigits : digits ≠ 0) (h : 400 < exponent) :
    bound ≤ digits * 10 ^ exponent * unit := by
  obtain ⟨least, hleast, hpower⟩ : ∃ n ≤ 401, bound ≤ 10 ^ n * unit :=
    ⟨401, Nat.le_refl _, by decide +kernel⟩
  have hexponent : 10 ^ least ≤ digits * 10 ^ exponent :=
    Nat.le_trans (Nat.pow_le_pow_right (by decide) (Nat.le_trans hleast h))
      (Nat.le_mul_of_pos_left _ (Nat.pos_iff_ne_zero.2 hdigits))
  exact Nat.le_trans hpower (Nat.mul_le_mul_right _ hexponent)

theorem double_lt_of_exponent {digits exponent : Nat} (h : digits.log2 + 1080 < 3 * exponent) :
    2 * (digits * unit) < 10 ^ exponent := by
  have hdigits : digits < 2 ^ (digits.log2 + 1) := Nat.lt_log2_self
  obtain ⟨size, hsize, hunit⟩ : ∃ n ≤ 1074, unit = 2 ^ n := ⟨1074, Nat.le_refl _, by decide +kernel⟩
  rw [hunit]
  calc 2 * (digits * 2 ^ size)
    _ < 2 * (2 ^ (digits.log2 + 1) * 2 ^ size) :=
      Nat.mul_lt_mul_of_pos_left (Nat.mul_lt_mul_of_pos_right hdigits (Nat.two_pow_pos _))
        (by decide)
    _ = 2 ^ (digits.log2 + 1 + size + 1) := by
      rw [← Nat.pow_add, Nat.mul_comm, ← Nat.pow_succ]
    _ ≤ 2 ^ (3 * exponent) := Nat.pow_le_pow_right (by decide) (by omega)
    _ = (2 ^ 3) ^ exponent := Nat.pow_mul 2 3 exponent
    _ ≤ 10 ^ exponent := Nat.pow_le_pow_left (by decide) exponent

/-- The number of a numeral is the rounding of its value, however the exponent is written as a
difference. -/
theorem ofScientific_eq_ofSteps {digits : Nat} (hdigits : digits ≠ 0) {exponent : Int}
    {up down : Nat} (h : exponent = up - down) (negative : Bool) :
    ofScientific negative digits exponent =
      ofSteps negative (digits * 10 ^ up * unit) (10 ^ down) := by
  have hten : ∀ n, 0 < 10 ^ n := fun n ↦ Nat.pow_pos (by decide)
  rw [ofScientific, if_neg hdigits]
  simp only [Nat.pow_eq]
  split
  · next hlarge =>
    refine (ofSteps_of_bound_le ?_ negative).symm
    rw [Nat.le_div_iff_mul_le (hten down)]
    have hup : up = exponent.toNat + down := by omega
    have hbound := bound_le_of_exponent hdigits (show 400 < exponent.toNat by omega)
    calc bound * 10 ^ down
      _ ≤ digits * 10 ^ exponent.toNat * unit * 10 ^ down := Nat.mul_le_mul_right _ hbound
      _ = digits * 10 ^ up * unit := by
        rw [hup, Nat.pow_add, Nat.mul_right_comm, ← Nat.mul_assoc]
  · split
    · next hsign =>
      refine ofSteps_eq_of_mul_eq Nat.one_pos (hten down) ?_ negative
      have hup : up = exponent.toNat + down := by omega
      rw [hup, Nat.mul_one, Nat.pow_add, Nat.mul_right_comm, ← Nat.mul_assoc]
    · next hsign =>
      have hdown : down = up + exponent.natAbs := by omega
      split
      · next hsmall =>
        refine (ofSteps_of_double_lt ?_ negative).symm
        have hdouble := double_lt_of_exponent hsmall
        calc 2 * (digits * 10 ^ up * unit)
          _ = 2 * (digits * unit) * 10 ^ up := by
            generalize unit = steps
            ac_rfl
          _ < 10 ^ exponent.natAbs * 10 ^ up := Nat.mul_lt_mul_of_pos_right hdouble (hten up)
          _ = 10 ^ down := by rw [hdown, Nat.pow_add, Nat.mul_comm]
      · refine ofSteps_eq_of_mul_eq (hten _) (hten down) ?_ negative
        rw [hdown, Nat.pow_add]
        generalize unit = steps
        ac_rfl

/-- Zeros at the end of the digits are worth a smaller exponent. -/
theorem ofScientific_mul_ten_pow (negative : Bool) (digits k : Nat) (exponent : Int) :
    ofScientific negative (10 ^ k * digits) exponent =
      ofScientific negative digits (exponent + k) := by
  by_cases hdigits : digits = 0
  · simp [hdigits, ofScientific]
  · have hproduct : 10 ^ k * digits ≠ 0 :=
      Nat.mul_ne_zero (Nat.pos_iff_ne_zero.1 (Nat.pow_pos (by decide))) hdigits
    have hsplit :
        exponent = ((exponent + exponent.natAbs).toNat : Nat) - (exponent.natAbs : Nat) := by
      omega
    have hsplit' : exponent + k =
        ((k + (exponent + exponent.natAbs).toNat : Nat) : Int) - (exponent.natAbs : Nat) := by
      omega
    rw [ofScientific_eq_ofSteps hproduct hsplit, ofScientific_eq_ofSteps hdigits hsplit',
      Nat.pow_add]
    generalize unit = steps
    congr 1
    ac_rfl

end Binary64

end ResourceQuery.Number
