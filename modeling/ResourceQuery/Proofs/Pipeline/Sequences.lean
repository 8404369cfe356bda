import ResourceQuery.Pipeline.Run

/-!
Stages on states that hold a sequence. Such a state is known by its kind and by its elements as
values, and what limits, slices and the removal of duplicates do to rows, they do to the rows as
values: they leave the kind as it is and do not look into what they keep.
-/

set_option autoImplicit false

namespace ResourceQuery.State

variable {s t u : State} {xs ys : List Value}

/-- A sequence of the kind of `s` that is made of `ys`. -/
structure Rebuilt (s : State) (ys : List Value) (t : State) : Prop where
  kind_eq : t.kind = s.kind
  items_eq : t.items? = some ys

theorem Rebuilt.unique (ht : s.Rebuilt ys t) (hu : s.Rebuilt ys u) : t = u := by
  have hkind := ht.kind_eq.trans hu.kind_eq.symm
  have hitems := ht.items_eq.trans hu.items_eq.symm
  cases t <;> cases u <;> cases hkind
  case records.records rows rows' | grouped.grouped rows rows' =>
    have hrows : rows = rows' :=
      (List.map_inj_right fun _ _ ↦ Value.object.inj).1 (Option.some.inj hitems)
    rw [hrows]
  case values.values vs vs' => rw [Option.some.inj hitems]
  case scalar.scalar v v' => cases ht.items_eq

theorem items_of_items? (h : s.items? = some xs) (op : Operator) : s.items op = .ok xs := by
  rw [items, h]

/-- A change that does not look at the elements of a sequence can be made to them as values. -/
theorem exists_rebuilt_of_reorder {change : {α : Type} → List α → List α}
    (hmap : ∀ {α β : Type} (f : α → β) (elements : List α),
      change (elements.map f) = (change elements).map f)
    (h : s.items? = some xs) (op : Operator) :
    ∃ t, s.reorder op change = .ok t ∧ s.Rebuilt (change xs) t := by
  cases s with
  | records rows | grouped rows =>
    cases h
    exact ⟨_, rfl, rfl, congrArg some (hmap Value.object rows).symm⟩
  | values vs =>
    cases h
    exact ⟨_, rfl, rfl, rfl⟩
  | scalar v => cases h

end ResourceQuery.State
