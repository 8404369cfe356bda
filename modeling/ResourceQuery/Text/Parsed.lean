/-!
Results of reading from the front of a list of symbols. A result carries what is left to read and
the fact that this is shorter than a bound, which is what lets a reader call itself on the rest.
-/

set_option autoImplicit false

namespace ResourceQuery.Text

structure Parsed (τ α : Type) (bound : Nat) where
  value : α
  rest : List τ
  shorter : rest.length < bound

namespace Parsed

variable {τ α β : Type} {bound : Nat}

def map (f : α → β) (p : Parsed τ α bound) : Parsed τ β bound :=
  ⟨f p.value, p.rest, p.shorter⟩

/-- The result without its bound. -/
def toPair (p : Parsed τ α bound) : α × List τ :=
  (p.value, p.rest)

/-- Weakens the bound. -/
def mono {larger : Nat} (h : bound ≤ larger) (p : Parsed τ α bound) : Parsed τ α larger :=
  ⟨p.value, p.rest, Nat.lt_of_lt_of_le p.shorter h⟩

@[simp]
theorem toPair_map (f : α → β) (p : Parsed τ α bound) :
    (p.map f).toPair = (f p.value, p.rest) :=
  rfl

@[simp]
theorem toPair_mono {larger : Nat} (h : bound ≤ larger) (p : Parsed τ α bound) :
    (p.mono h).toPair = p.toPair :=
  rfl

end Parsed

end ResourceQuery.Text
