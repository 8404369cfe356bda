/-!
Integers of sixty-four bits as results of exact arithmetic: a result that does not fit is noticed or
brought into range, never wrapped around.
-/

set_option autoImplicit false

namespace ResourceQuery.Number

/-- The number that sixty-four bits with a sign can hold, if it is one. -/
def int64? (z : Int) : Option Int64 :=
  if Int64.minValue.toInt ≤ z ∧ z ≤ Int64.maxValue.toInt then some (Int64.ofInt z) else none

theorem toInt_of_int64? {z : Int} {n : Int64} (h : int64? z = some n) : n.toInt = z := by
  unfold int64? at h
  split at h
  · next hz =>
    obtain rfl := Option.some.inj h
    exact Int64.toInt_ofInt_of_le hz.1 (Int.lt_add_one_of_le hz.2)
  · simp at h

theorem int64?_toInt (n : Int64) : int64? n.toInt = some n := by
  rw [int64?, if_pos ⟨Int64.le_toInt n, Int.le_of_lt_add_one (Int64.toInt_lt n)⟩,
    Int64.ofInt_toInt]

/-- The nearest number that sixty-four bits with a sign can hold. -/
def saturateInt64 (z : Int) : Int64 :=
  if z < Int64.minValue.toInt then Int64.minValue
  else if Int64.maxValue.toInt < z then Int64.maxValue
  else Int64.ofInt z

def add? (m n : Int64) : Option Int64 :=
  int64? (m.toInt + n.toInt)

end ResourceQuery.Number
