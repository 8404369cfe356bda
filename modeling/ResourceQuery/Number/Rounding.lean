/-!
Rounding of quotients of natural numbers to a whole number. The two rules differ only where the
quotient lies half way between two neighbours.
-/

set_option autoImplicit false

namespace ResourceQuery.Number

/-- The whole number nearest to `num / den`; a half goes to the even neighbour. -/
def roundHalfEven (num den : Nat) : Nat :=
  let floor := num / den
  let double := 2 * (num % den)
  if double < den ∨ (double = den ∧ floor % 2 = 0) then floor else floor + 1

/-- The whole number nearest to `num / den`; a half goes up. -/
def roundHalfUp (num den : Nat) : Nat :=
  (2 * num + den) / (2 * den)

theorem div_le_roundHalfEven (num den : Nat) : num / den ≤ roundHalfEven num den := by
  unfold roundHalfEven
  dsimp only
  split <;> omega

theorem roundHalfEven_le (num den : Nat) : roundHalfEven num den ≤ num / den + 1 := by
  unfold roundHalfEven
  dsimp only
  split <;> omega

theorem roundHalfEven_mul_right {den : Nat} (n : Nat) (h : 0 < den) :
    roundHalfEven (n * den) den = n := by
  simp [roundHalfEven, Nat.mul_div_cancel n h, h]

end ResourceQuery.Number
