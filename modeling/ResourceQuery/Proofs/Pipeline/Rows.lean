import ResourceQuery.Proofs.Pipeline.Run

/-!
Stages on states that hold rows. What a stage does to rows does not depend on whether they are
records or groups: filters, projections and sorts keep the shape of the state, and other stages
forget it.
-/

set_option autoImplicit false

namespace ResourceQuery.State

variable {s : State} {rows : List Record}

/-- The state of the same shape with other rows. -/
def withRows (rows : List Record) : State → State
  | .records _ => .records rows
  | .grouped _ => .grouped rows
  | s => s

theorem rows?_withRows (hrows : s.rows? = some rows) (other : List Record) :
    (s.withRows other).rows? = some other := by
  cases s with
  | records found | grouped found => rfl
  | values vs | scalar v => cases hrows

theorem kind_withRows (rows : List Record) : (s.withRows rows).kind = s.kind := by
  cases s <;> rfl

theorem withRows_withRows (first second : List Record) :
    (s.withRows first).withRows second = s.withRows second := by
  cases s <;> rfl

theorem withRows_self (hrows : s.rows? = some rows) : s.withRows rows = s := by
  cases s <;> cases hrows <;> rfl

theorem filter_of_rows (hrows : s.rows? = some rows) (p : Predicate) :
    s.filter p = (p.keep rows >>= fun kept ↦ .ok (s.withRows kept)) := by
  cases s <;> cases hrows <;> rfl

theorem select_of_rows (hrows : s.rows? = some rows) (fields : List Path) :
    s.select fields =
      (rows.mapM (project fields) >>= fun projected ↦ .ok (s.withRows projected)) := by
  cases s <;> cases hrows <;> rfl

theorem sort_of_rows {keys : List SortSpec} (hkeys : keys ≠ []) (hrows : s.rows? = some rows) :
    s.sort keys = (sortRows keys rows >>= fun sorted ↦ .ok (s.withRows sorted)) := by
  obtain ⟨key, keys, rfl⟩ := List.exists_cons_of_ne_nil hkeys
  cases s <;> cases hrows <;> rfl

theorem extractValues_of_rows? {f : Path} (h : s.rows? = some rows) :
    s.extractValues f = (f.extract rows >>= fun vs ↦ .ok (.values vs)) := by
  rw [extractValues, State.rows, h]
  rfl

theorem first_of_rows {r : Record} {rest : List Record} (hrows : s.rows? = some (r :: rest)) :
    s.first = .ok (.scalar (.object r)) := by
  cases s <;> cases hrows <;> rfl

/-- A reduction of rows is that of a group of them, if all but counting have a field. -/
theorem reduce_of_rows {reducer : Reducer} (hrows : s.rows? = some rows)
    (hfield : reducer.field = none ↔ reducer.function = .count) :
    s.reduce reducer = (reduceGroup rows reducer >>= fun v ↦ .ok (.scalar v)) := by
  obtain ⟨function, field⟩ := reducer
  cases s with
  | records found | grouped found =>
    cases hrows
    cases field with
    | none =>
      obtain rfl : function = .count := hfield.1 rfl
      rfl
    | some field =>
      have hcount : function ≠ .count := fun h ↦ nomatch hfield.2 h
      rw [reduce, reduceGroup, if_neg hcount, bind_assoc]
      rfl
  | values vs | scalar v => cases hrows

end ResourceQuery.State
