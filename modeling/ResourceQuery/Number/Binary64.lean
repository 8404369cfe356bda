import ResourceQuery.Number.Rounding

/-!
Double-precision binary numbers by their exact values. A finite number is a sign and a count of the
smallest positive number, `2 ^ -1074`; the count has at most 53 significant bits and stays below
`2 ^ 2098`. Arithmetic is exact up to one rounding at its end, to the nearest count that can be
represented, a half going to the even neighbour. Powers are written with `Nat.pow`, which means the
same whatever else is imported.
-/

set_option autoImplicit false

namespace ResourceQuery.Number

/-- The steps of `2 ^ -1074` in one. -/
def Binary64.unit : Nat := Nat.pow 2 1074

/-- The steps at which the range of finite numbers ends. -/
def Binary64.bound : Nat := Nat.pow 2 2098

/-- The gap between neighbouring numbers about a value of `floor` steps. -/
def Binary64.gap (floor : Nat) : Nat :=
  Nat.pow 2 (floor.log2 - 52)

structure Binary64.Representable (steps : Nat) : Prop where
  lt_bound : steps < Binary64.bound
  coarse : Binary64.gap steps ∣ steps

inductive Binary64 where
  | nan
  | infinite (negative : Bool)
  | finite (negative : Bool) (steps : Nat) (representable : Binary64.Representable steps)
  deriving DecidableEq

namespace Binary64

/-- At most `2 ^ 53` gaps lie on the grid of their own size. -/
theorem gap_dvd {k : Nat} (h : k ≤ Nat.pow 2 53) (floor : Nat) :
    gap (k * gap floor) ∣ k * gap floor := by
  simp only [gap, Nat.pow_eq] at h ⊢
  generalize floor.log2 - 52 = s
  by_cases hk : k = 0
  · simp [hk]
  by_cases htop : k = 2 ^ 53
  · subst htop
    rw [← Nat.pow_add, Nat.log2_two_pow]
    exact Nat.pow_dvd_pow 2 (by omega)
  · have hpos : k * 2 ^ s ≠ 0 := Nat.mul_ne_zero hk (Nat.pos_iff_ne_zero.1 (Nat.two_pow_pos s))
    have hlog : (k * 2 ^ s).log2 < 53 + s := by
      rw [Nat.log2_lt hpos, Nat.pow_add]
      exact Nat.mul_lt_mul_of_pos_right (by omega) (Nat.two_pow_pos s)
    exact Nat.dvd_trans (Nat.pow_dvd_pow 2 (by omega)) (Nat.dvd_mul_left _ _)

/-- The count of steps nearest to `num / den` with at most 53 significant bits. -/
def nearestSteps (num den : Nat) : Nat :=
  roundHalfEven num (den * gap (num / den)) * gap (num / den)

theorem coarse_nearestSteps (num den : Nat) :
    gap (nearestSteps num den) ∣ nearestSteps num den := by
  refine gap_dvd (Nat.le_trans (roundHalfEven_le _ _) ?_) _
  rw [gap, ← Nat.div_div_eq_div_mul, Nat.pow_eq, Nat.pow_eq]
  have hfloor : num / den < 2 ^ 53 * 2 ^ ((num / den).log2 - 52) := by
    refine Nat.lt_of_lt_of_le (Nat.lt_log2_self (n := num / den)) ?_
    rw [← Nat.pow_add]
    exact Nat.pow_le_pow_right (by decide) (by omega)
  have := (Nat.div_lt_iff_lt_mul (Nat.two_pow_pos _)).2 hfloor
  omega

/-- The number nearest to `num / den` steps. -/
def ofSteps (negative : Bool) (num den : Nat) : Binary64 :=
  if h : nearestSteps num den < bound then
    .finite negative (nearestSteps num den) ⟨h, coarse_nearestSteps num den⟩
  else .infinite negative

def zero (negative : Bool) : Binary64 :=
  .finite negative 0 ⟨by decide +kernel, by simp⟩

instance : Inhabited Binary64 := ⟨zero false⟩

def ofInt (z : Int) : Binary64 :=
  ofSteps (z < 0) (z.natAbs * unit) 1

def isFinite : Binary64 → Bool
  | .finite .. => true
  | _ => false

def signed (negative : Bool) (steps : Nat) : Int :=
  if negative then -(steps : Int) else steps

/-- The value of a sum of finite numbers that is exactly zero is negative only if both are. -/
def add : Binary64 → Binary64 → Binary64
  | .nan, _ | _, .nan => .nan
  | .infinite a, .infinite b => if a = b then .infinite a else .nan
  | .infinite a, .finite .. => .infinite a
  | .finite .., .infinite b => .infinite b
  | .finite a m _, .finite b n _ =>
    let total := signed a m + signed b n
    if total = 0 then zero (a && b) else ofSteps (total < 0) total.natAbs 1

def mul : Binary64 → Binary64 → Binary64
  | .nan, _ | _, .nan => .nan
  | .infinite a, .infinite b => .infinite (a != b)
  | .infinite a, .finite b n _ => if n = 0 then .nan else .infinite (a != b)
  | .finite a m _, .infinite b => if m = 0 then .nan else .infinite (a != b)
  | .finite a m _, .finite b n _ => ofSteps (a != b) (m * n) unit

def div : Binary64 → Binary64 → Binary64
  | .nan, _ | _, .nan => .nan
  | .infinite _, .infinite _ => .nan
  | .infinite a, .finite b _ _ => .infinite (a != b)
  | .finite a _ _, .infinite b => zero (a != b)
  | .finite a m _, .finite b n _ =>
    if n = 0 then if m = 0 then .nan else .infinite (a != b)
    else ofSteps (a != b) (m * unit) n

def neg : Binary64 → Binary64
  | .nan => .nan
  | .infinite a => .infinite (!a)
  | .finite a m h => .finite (!a) m h

/-- The position of a number in the order of the extended line. The first part puts the infinities
outside, the second counts steps. -/
def rank? : Binary64 → Option (Int × Int)
  | .nan => none
  | .infinite a => some (if a then -1 else 1, 0)
  | .finite a m _ => some (0, signed a m)

/-- Comparison by value. It has no answer where one side is not a number. -/
def compare? (x y : Binary64) : Option Ordering :=
  match x.rank?, y.rank? with
  | some p, some q => some ((Ord.compare p.1 q.1).then (Ord.compare p.2 q.2))
  | _, _ => none

/-- Equality by value: the two zeros are equal, and `nan` is equal to nothing. -/
def equal (x y : Binary64) : Bool :=
  x.compare? y == some .eq

def isWhole : Binary64 → Bool
  | .finite _ m _ => m % unit == 0
  | _ => false

/-- The whole number next to a finite number on the side of zero. -/
def truncate : Binary64 → Int
  | .finite a m _ => signed a (m / unit)
  | _ => 0

/-- Rounds to a whole number; a half goes away from zero. -/
def round : Binary64 → Binary64
  | .finite a m _ => ofSteps a (roundHalfUp m unit * unit) 1
  | x => x

/-- The number nearest to `digits * 10 ^ exponent`. Exponents whose power of ten alone leaves the
range on either side are settled without computing that power. -/
def ofScientific (negative : Bool) (digits : Nat) (exponent : Int) : Binary64 :=
  if digits = 0 then zero negative
  else if 400 < exponent then .infinite negative
  else if 0 ≤ exponent then ofSteps negative (digits * Nat.pow 10 exponent.toNat * unit) 1
  else if digits.log2 + 1080 < 3 * exponent.natAbs then zero negative
  else ofSteps negative (digits * unit) (Nat.pow 10 exponent.natAbs)

end Binary64

end ResourceQuery.Number
