import ResourceQuery.Pipeline.Sort
import ResourceQuery.Proofs.Value.Comparison
import Mathlib.Data.List.Forall2

/-!
The order that sorting puts rows in, where two keys that do not compare are noted and count as a
tie. It turns around with its sides. Whether it is transitive depends on the columns that the keys
come from, and the main statement says exactly how: each column has to be transitive by itself, and
where some column tells two values apart, no column may let a value that compares with itself tie
with one that it does not compare with, because such a tie hides the keys behind it.
-/

set_option autoImplicit false

namespace ResourceQuery.Sort

/-- The order of two rows by their keys. A comparison that fails counts as a tie. -/
def order (directions : List Direction) (xs ys : List Value) : Ordering :=
  match compareKeys directions xs ys with
  | .ok o => o
  | .error _ => .eq

/-- The order of two keys. -/
def orderOne (direction : Direction) (x y : Value) : Ordering :=
  direction.apply ((x.compare? y).getD .eq)

/-- The values that may occur as the key in one place of a row. -/
abbrev Column := Value → Prop

/-- Whether a row of keys takes each key from its column. -/
def Fits (columns : List Column) (xs : List Value) : Prop :=
  List.Forall₂ (fun column x ↦ column x) columns xs

def TransitiveOn {α : Type} (cmp : α → α → Ordering) (p : α → Prop) : Prop :=
  ∀ a b c, p a → p b → p c → cmp a b ≠ .gt → cmp b c ≠ .gt → cmp a c ≠ .gt

/-- Whether a column tells some two of its values apart. -/
def Column.Separates (column : Column) : Prop :=
  ∃ x y, column x ∧ column y ∧ x.compare? y = some .lt

/-- Whether the values of a column that compare with themselves compare with all of the column. -/
def Column.Closed (column : Column) : Prop :=
  ∀ x y, column x → column y → x.compare? x = some .eq → x.compare? y ≠ none

theorem apply_swap (direction : Direction) (o : Ordering) :
    direction.apply o.swap = (direction.apply o).swap := by
  cases direction <;> rfl

theorem order_cons (direction : Direction) (directions : List Direction) (x y : Value)
    (xs ys : List Value) :
    order (direction :: directions) (x :: xs) (y :: ys) =
      if x.compare? y = some .eq then order directions xs ys else orderOne direction x y := by
  rw [order, compareKeys]
  rcases h : x.compare? y with _ | _ | _ | _
  · cases direction <;> simp [orderOne, h, Direction.apply]
  · simp [orderOne, h]
  · simp [order]
  · simp [orderOne, h]

theorem orderOne_of_compare? {x y : Value} {o : Ordering} (h : x.compare? y = some o)
    (direction : Direction) : orderOne direction x y = direction.apply o := by
  rw [orderOne, h, Option.getD_some]

theorem orderOne_swap (direction : Direction) (x y : Value) :
    orderOne direction y x = (orderOne direction x y).swap := by
  rw [orderOne, Value.compare?_swap, orderOne, ← apply_swap]
  cases x.compare? y <;> rfl

theorem order_swap (directions : List Direction) (xs ys : List Value) :
    order directions ys xs = (order directions xs ys).swap := by
  induction directions generalizing xs ys with
  | nil => rfl
  | cons direction directions ih =>
    rcases xs with _ | ⟨x, xs⟩ <;> rcases ys with _ | ⟨y, ys⟩ <;> try rfl
    have heq : y.compare? x = some .eq ↔ x.compare? y = some .eq := by
      rw [Value.compare?_swap x y]
      rcases x.compare? y with _ | _ | _ | _ <;> simp
    rw [order_cons, order_cons, ih, orderOne_swap direction x y]
    by_cases h : x.compare? y = some .eq
    · rw [if_pos h, if_pos (heq.2 h)]
    · rw [if_neg h, if_neg fun h' ↦ h (heq.1 h')]

/-- The direction does not matter for transitivity: turning it around turns the sides around. -/
theorem TransitiveOn.orderOne {column : Column} (h : TransitiveOn (orderOne .ascending) column)
    (direction : Direction) : TransitiveOn (orderOne direction) column := by
  cases direction with
  | ascending => exact h
  | descending =>
    have hturned : ∀ x y, Sort.orderOne .descending x y = Sort.orderOne .ascending y x := by
      intro x y
      rw [orderOne_swap .ascending x y]
      rfl
    intro x y z hx hy hz hxy hyz
    rw [hturned] at hxy hyz ⊢
    exact h z y x hz hy hx hyz hxy

/-- Keys of which no column tells any two apart are all tied. -/
theorem order_eq_of_not_separates {columns : List Column}
    (h : ∀ column ∈ columns, ¬ column.Separates) {xs ys : List Value} (hxs : Fits columns xs)
    (hys : Fits columns ys) (directions : List Direction) : order directions xs ys = .eq := by
  induction directions generalizing columns xs ys with
  | nil => rfl
  | cons direction directions ih =>
    cases hxs with
    | nil => rfl
    | @cons column x columns xs hx hxs =>
      cases hys with
      | @cons _ y _ ys hy hys =>
        have hrest := ih (fun column hcolumn ↦ h column (List.mem_cons_of_mem _ hcolumn)) hxs hys
        have hfirst := h column List.mem_cons_self
        rw [order_cons, hrest, orderOne]
        rcases hxy : x.compare? y with _ | _ | _ | _
        · cases direction <;> simp [Direction.apply]
        · exact absurd ⟨x, y, hx, hy, hxy⟩ hfirst
        · simp
        · have hyx := Value.compare?_swap x y
          rw [hxy] at hyx
          exact absurd ⟨y, x, hy, hx, hyx⟩ hfirst

/-- Three keys of a transitive column in a circle of which two compare equal all compare equal, if
those that compare with themselves compare with all. -/
theorem compare?_eq_of_circle {column : Column} {direction : Direction} {x y z : Value}
    (htransitive : TransitiveOn (orderOne direction) column) (hclosed : column.Closed)
    (hx : column x) (hy : column y) (hz : column z) (hxy : orderOne direction x y ≠ .gt)
    (hyz : orderOne direction y z ≠ .gt) (hxz : x.compare? z = some .eq) :
    x.compare? y = some .eq ∧ y.compare? z = some .eq := by
  have hzx : z.compare? x = some .eq := by
    rw [Value.compare?_swap x z, hxz]
    rfl
  have hback : orderOne direction z x ≠ .gt := by
    rw [orderOne_of_compare? hzx]
    cases direction <;> decide
  -- No step of the circle goes strictly up, since the other two lead back.
  have htied : ∀ u v, column u → column v → orderOne direction u v ≠ .gt →
      orderOne direction v u ≠ .gt → u.compare? u = some .eq → u.compare? v = some .eq := by
    intro u v hu hv huv hvu hself
    rw [orderOne_swap direction u v] at hvu
    rcases h : u.compare? v with _ | o
    · exact absurd h (hclosed u v hu hv hself)
    · rw [orderOne_of_compare? h] at huv hvu
      cases o <;> cases direction <;> simp_all [Direction.apply]
  have hyx : orderOne direction y x ≠ .gt := htransitive y z x hy hz hx hyz hback
  have hzy : orderOne direction z y ≠ .gt := htransitive z x y hz hx hy hback hxy
  refine ⟨htied x y hx hy hxy hyx (Value.compare?_self hxz), ?_⟩
  rw [Value.compare?_swap z y, htied z y hz hy hzy hyz (Value.compare?_self hzx)]
  rfl

theorem order_transitive_of_closed {columns : List Column}
    (htransitive : ∀ column ∈ columns, TransitiveOn (orderOne .ascending) column)
    (hclosed : ∀ column ∈ columns, column.Closed) (directions : List Direction) :
    TransitiveOn (order directions) (Fits columns) := by
  induction directions generalizing columns with
  | nil =>
    intro _ _ _ _ _ _ _ _ h
    cases h
  | cons direction directions ih =>
    intro xs ys zs hxs hys hzs hxy hyz
    cases hxs with
    | nil =>
      cases hzs
      intro h
      cases h
    | @cons column x columns xs hx hxs =>
      cases hys with
      | @cons _ y _ ys hy hys =>
        cases hzs with
        | @cons _ z _ zs hz hzs =>
          have hcolumn := (htransitive column List.mem_cons_self).orderOne direction
          have hfirst : ∀ (u v : Value) (us vs : List Value),
              order (direction :: directions) (u :: us) (v :: vs) ≠ .gt →
                orderOne direction u v ≠ .gt := by
            intro u v us vs h
            rw [order_cons] at h
            split at h
            · next heq =>
              rw [orderOne_of_compare? heq]
              cases direction <;> decide
            · exact h
          have hxy' := hfirst x y xs ys hxy
          have hyz' := hfirst y z ys zs hyz
          rw [order_cons]
          split
          · next heq =>
            obtain ⟨heqxy, heqyz⟩ := compare?_eq_of_circle hcolumn
              (hclosed column List.mem_cons_self) hx hy hz hxy' hyz' heq
            rw [order_cons, if_pos heqxy] at hxy
            rw [order_cons, if_pos heqyz] at hyz
            exact ih (fun c hc ↦ htransitive c (List.mem_cons_of_mem _ hc))
              (fun c hc ↦ hclosed c (List.mem_cons_of_mem _ hc)) xs ys zs hxs hys hzs hxy hyz
          · exact hcolumn x y z hx hy hz hxy' hyz'

theorem order_transitive {columns : List Column}
    (htransitive : ∀ column ∈ columns, TransitiveOn (orderOne .ascending) column)
    (hclosed : (∃ column ∈ columns, column.Separates) → ∀ column ∈ columns, column.Closed)
    (directions : List Direction) : TransitiveOn (order directions) (Fits columns) := by
  by_cases hseparates : ∃ column ∈ columns, column.Separates
  · exact order_transitive_of_closed htransitive (hclosed hseparates) directions
  · intro xs ys zs hxs _ hzs _ _
    rw [order_eq_of_not_separates (fun c hc h ↦ hseparates ⟨c, hc, h⟩) hxs hzs]
    decide

/-- Columns of values that all compare with each other, and exactly, are in order. -/
theorem transitiveOn_of_exact {column : Column}
    (h : ∀ x y, column x → column y → Value.Exact x y ∧ x.compare? y ≠ none) :
    TransitiveOn (orderOne .ascending) column := by
  intro x y z hx hy hz hxy hyz
  obtain ⟨hexact, hcompare⟩ := h x y hx hy
  obtain ⟨hexact', hcompare'⟩ := h y z hy hz
  obtain ⟨o, ho⟩ := Option.ne_none_iff_exists'.1 hcompare
  obtain ⟨p, hp⟩ := Option.ne_none_iff_exists'.1 hcompare'
  rw [orderOne_of_compare? ho] at hxy
  rw [orderOne_of_compare? hp] at hyz
  rw [orderOne_of_compare? (Value.compare?_trans hexact hexact' ho hp hxy hyz)]
  revert hxy hyz
  cases o <;> cases p <;> decide

theorem transitiveOn_of_order {column : Column}
    (h : TransitiveOn (order [.ascending]) (Fits [column])) :
    TransitiveOn (orderOne .ascending) column := by
  have hsingle : ∀ x y, order [.ascending] [x] [y] = orderOne .ascending x y := by
    intro x y
    rw [order_cons]
    split
    · next heq => rw [orderOne_of_compare? heq]; rfl
    · rfl
  intro x y z hx hy hz hxy hyz
  rw [← hsingle] at hxy hyz ⊢
  exact h [x] [y] [z] (.cons hx .nil) (.cons hy .nil) (.cons hz .nil) hxy hyz

/-- A tie without a comparison hides a later column that tells two values apart. -/
theorem closed_of_order {column later : Column}
    (h : TransitiveOn (order [.ascending, .ascending]) (Fits [column, later]))
    (hlater : later.Separates) : column.Closed := by
  obtain ⟨p, q, hp, hq, hpq⟩ := hlater
  intro x y hx hy hself hnone
  have hback : y.compare? x = none := by
    rw [Value.compare?_swap x y, hnone]
    rfl
  have hfits : ∀ u v, column u → later v → Fits [column, later] [u, v] := fun u v hu hv ↦
    .cons hu (.cons hv .nil)
  have hdown : order [.ascending, .ascending] [x, q] [y, p] ≠ .gt := by
    rw [order_cons, hnone, if_neg (by simp), orderOne, hnone]
    decide
  have hup : order [.ascending, .ascending] [y, p] [x, p] ≠ .gt := by
    rw [order_cons, hback, if_neg (by simp), orderOne, hback]
    decide
  refine h [x, q] [y, p] [x, p] (hfits x q hx hq) (hfits y p hy hp) (hfits x p hx hp) hdown hup ?_
  have hqp : q.compare? p = some .gt := by
    rw [Value.compare?_swap p q, hpq]
    rfl
  rw [order_cons, if_pos hself, order_cons, orderOne_of_compare? hqp, hqp]
  rfl

/-- Not every order of keys is transitive: without a comparison `2` ties with `null` and `null` with
`1`. -/
theorem order_not_transitive :
    ¬ ∀ (directions : List Direction) (xs ys zs : List Value), xs.length = directions.length →
      ys.length = directions.length → zs.length = directions.length →
      order directions xs ys ≠ .gt → order directions ys zs ≠ .gt →
      order directions xs zs ≠ .gt := by
  intro h
  exact h [.ascending] [.integer 2] [.null] [.integer 1] rfl rfl rfl (by decide) (by decide)
    (by decide)

/-- When the order of rows is a total preorder: over the columns of a family, in any number and with
any directions, it turns around with its sides and is transitive exactly if every column of the
family is transitive by itself and, if some column tells two values apart, all are closed. Columns
whose values all compare exactly meet these conditions. -/
theorem order_preorder_iff (family : Column → Prop) :
    ((∀ columns : List Column, (∀ column ∈ columns, family column) →
      ∀ directions : List Direction, directions.length = columns.length →
        (∀ xs ys, Fits columns xs → Fits columns ys →
          order directions ys xs = (order directions xs ys).swap) ∧
        TransitiveOn (order directions) (Fits columns)) ↔
      (∀ column, family column → TransitiveOn (orderOne .ascending) column) ∧
        ((∃ column, family column ∧ column.Separates) →
          ∀ column, family column → column.Closed)) ∧
    ((∀ column, family column → ∀ x y, column x → column y →
        Value.Exact x y ∧ x.compare? y ≠ none) →
      ∀ column, family column → TransitiveOn (orderOne .ascending) column ∧ column.Closed) := by
  refine ⟨⟨fun h ↦ ⟨fun column hcolumn ↦ ?_, ?_⟩, ?_⟩, fun h column hcolumn ↦ ⟨?_, ?_⟩⟩
  · exact transitiveOn_of_order (h [column] (by simpa using hcolumn) [.ascending] rfl).2
  · rintro ⟨later, hlater, hseparates⟩ column hcolumn
    have hboth : ∀ c ∈ [column, later], family c := by simp [hcolumn, hlater]
    exact closed_of_order (h [column, later] hboth [.ascending, .ascending] rfl).2 hseparates
  · rintro ⟨htransitive, hclosed⟩ columns hcolumns directions _
    refine ⟨fun xs ys _ _ ↦ order_swap directions xs ys, ?_⟩
    refine order_transitive (fun c hc ↦ htransitive c (hcolumns c hc)) ?_ directions
    rintro ⟨later, hlater, hseparates⟩ column hcolumn
    exact hclosed ⟨later, hcolumns later hlater, hseparates⟩ column (hcolumns column hcolumn)
  · exact transitiveOn_of_exact (h column hcolumn)
  · exact fun x y hx hy _ ↦ (h column hcolumn x y hx hy).2

end ResourceQuery.Sort
