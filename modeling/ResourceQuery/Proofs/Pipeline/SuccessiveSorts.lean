import Mathlib.Data.List.Perm.Basic
import ResourceQuery.Proofs.Pipeline.Rows
import ResourceQuery.Proofs.Pipeline.SortResult

/-!
Sorting by several keys, one key after the other. A sort by one key keeps rows that it finds equal
in the order of the sorts before it, so that sorting by the last key first and by the first key last
puts rows in the order of all keys. As a stable sort has only one result, this is the result of the
one sort by all of them.
-/

set_option autoImplicit false

namespace ResourceQuery

open ResourceQuery.Sort (NotAfter Sortable StablySorted)

theorem Sort.Sortable.perm {column other : List Value} (h : Sortable column)
    (hperm : other.Perm column) : Sortable other where
  comparable := by
    refine (hperm.pairwise_iff fun {x y} hxy ↦ ?_).2 h.comparable
    rwa [Value.compare?_swap x y, ne_eq, Option.map_eq_none_iff]
  transitive := by
    intro x hx y hy z hz
    rw [hperm.mem_iff] at hx hy hz
    exact h.transitive x hx y hy z hz

/-- The values of a field can be sorted in whatever order the rows come. -/
theorem Path.exists_sortable_of_perm {field : Path} {rows other : List Record}
    {column : List Value} (hcolumn : field.extract rows = .ok column) (h : Sortable column)
    (hperm : other.Perm rows) : ∃ column, field.extract other = .ok column ∧ Sortable column := by
  obtain ⟨moved, hmoved, hvalues⟩ := List.perm_comp_forall₂ hperm (mapM_eq_ok_iff.1 hcolumn)
  exact ⟨moved, mapM_eq_ok_iff.2 hmoved, h.perm hvalues⟩

theorem SortSpec.stablySorted_nil (rows : List Record) :
    StablySorted (compareRows? []) rows rows where
  perm := .refl rows
  ordered := List.pairwise_of_forall fun _ _ ↦ .inr rfl
  stable _ _ := rfl

namespace Stage

variable {keys : List SortSpec} {rows : List Record} {s : State}

/-- Sorting by one key after the other, from the last one on, is a stable sort by all of them. -/
theorem exists_stablySorted_of_passes (hrows : s.rows? = some rows)
    (h : ∀ key ∈ keys, ∃ column, key.field.extract rows = .ok column ∧ Sortable column) :
    ∃ sorted, StablySorted (SortSpec.compareRows? keys) rows sorted ∧
      runAll (keys.map fun key ↦ sort [key]).reverse s = .ok (s.withRows sorted) := by
  induction keys with
  | nil =>
    refine ⟨rows, SortSpec.stablySorted_nil rows, ?_⟩
    rw [State.withRows_self hrows]
    rfl
  | cons key keys ih =>
    rw [List.forall_mem_cons] at h
    obtain ⟨⟨column, hcolumn, hsortable⟩, hrest⟩ := h
    obtain ⟨sorted, hsorted, hpasses⟩ := ih hrest
    obtain ⟨last, hlast, hstable⟩ := State.stablySorted_sortRows <| List.forall_mem_singleton.2 <|
      Path.exists_sortable_of_perm hcolumn hsortable hsorted.perm
    rw [SortSpec.compareRows?_singleton] at hstable
    refine ⟨last, ?_, ?_⟩
    · rw [SortSpec.compareRows?_cons_eq_thenBy]
      exact hsorted.thenBy (SortSpec.consistent_compare? key) hstable
    · rw [List.map_cons, List.reverse_cons, runAll_append, hpasses, ok_bind, runAll_cons, run,
        State.sort_of_rows (List.cons_ne_nil _ _) (State.rows?_withRows hrows sorted), hlast,
        ok_bind, State.withRows_withRows]
      rfl

/-- A sort by several keys gives what sorts by each of them give, one after the other from the last
key to the first, where all rows have all keys and the values of each can be sorted. -/
theorem sort_eq_successive_sorts (hkeys : keys ≠ []) (hrows : s.rows? = some rows)
    (h : ∀ key ∈ keys, ∃ column, key.field.extract rows = .ok column ∧ Sortable column) :
    ∃ t, (sort keys).run s = .ok t ∧
      runAll (keys.map fun key ↦ sort [key]).reverse s = .ok t := by
  obtain ⟨sorted, hstable, hpasses⟩ := exists_stablySorted_of_passes hrows h
  obtain ⟨together, htogether, hstable'⟩ := State.stablySorted_sortRows h
  obtain rfl := hstable.unique (SortSpec.consistent_compareRows? keys) hstable'
  refine ⟨_, ?_, hpasses⟩
  rw [run, State.sort_of_rows hkeys hrows, htogether, ok_bind]

/-- Two of the three have the same age, and two live in the same city. -/
theorem sort_eq_successive_sorts_of_people :
    let person (age : Int64) (city : String) : Record :=
      [("age", .integer age), ("city", .string city)]
    let keys : List SortSpec :=
      [⟨⟨"age", [.field "age"]⟩, .descending⟩, ⟨⟨"city", [.field "city"]⟩, .ascending⟩]
    let rows := [person 30 "Rome", person 41 "Rome", person 30 "Oslo"]
    keys ≠ [] ∧ (State.records rows).rows? = some rows ∧
      (∀ key ∈ keys, ∃ column, key.field.extract rows = .ok column ∧ Sortable column) ∧
      ∃ t, (sort keys).run (.records rows) = .ok t ∧
        runAll (keys.map fun key ↦ sort [key]).reverse (.records rows) = .ok t ∧
        t = .records [person 41 "Rome", person 30 "Oslo", person 30 "Rome"] := by
  intro person keys rows
  have hkeys : keys ≠ [] := List.cons_ne_nil _ _
  have hrows : (State.records rows).rows? = some rows := rfl
  have hages : Sortable [.integer 30, .integer 41, .integer 30] :=
    ⟨by decide +kernel, by decide +kernel⟩
  have hcities : Sortable [.string "Rome", .string "Rome", .string "Oslo"] :=
    ⟨by decide +kernel, by decide +kernel⟩
  have hcolumns : ∀ key ∈ keys, ∃ column, key.field.extract rows = .ok column ∧ Sortable column :=
    List.forall_mem_cons.2 ⟨⟨_, rfl, hages⟩, List.forall_mem_singleton.2 ⟨_, rfl, hcities⟩⟩
  obtain ⟨t, hsort, hpasses⟩ := sort_eq_successive_sorts hkeys hrows hcolumns
  have hresult : (sort keys).run (.records rows) =
      .ok (.records [person 41 "Rome", person 30 "Oslo", person 30 "Rome"]) := rfl
  refine ⟨hkeys, hrows, hcolumns, t, hsort, hpasses, ?_⟩
  rw [hsort] at hresult
  cases hresult
  rfl

end Stage

end ResourceQuery
