import ResourceQuery.Proofs.Pipeline.Assignment
import ResourceQuery.Proofs.Pipeline.Rows

/-!
Unwinding arrays. A row is copied once for each item of an array in it, and the item takes the place
of the array in the copy. Where the array could be looked up it can be replaced, so that an array in
every row is all that is needed.
-/

set_option autoImplicit false

namespace ResourceQuery

namespace State

variable {f : Path} {r : Record} {rows copies : List Record} {s : State}

/-- The copies of a record for the items of an array in it: the path leads to an item each, in their
order, and the fields that it does not go through are those of the record. -/
def Unwound (f : Path) (r : Record) (copies : List Record) : Prop :=
  ∃ items, f.lookup r = .ok (.array items) ∧ List.Forall₂ (fun item copy ↦
    f.lookup copy = .ok item ∧
      ∀ name, f.leading ≠ some name → Record.get? name copy = Record.get? name r) items copies

theorem unwindRow_eq_ok_iff :
    unwindRow f r = .ok copies ↔
      ∃ items, f.lookup r = .ok (.array items) ∧ items.mapM (f.assign r) = .ok copies := by
  rw [unwindRow, bind_eq_ok_iff]
  constructor
  · rintro ⟨v, hv, hcopies⟩
    cases v with
    | array items => exact ⟨items, hv, hcopies⟩
    | _ => cases hcopies
  · rintro ⟨items, hitems, hcopies⟩
    exact ⟨_, hitems, hcopies⟩

/-- A row is unwound if there is an array in it. -/
theorem exists_unwindRow_iff :
    (∃ copies, unwindRow f r = .ok copies) ↔ ∃ items, f.lookup r = .ok (.array items) := by
  simp only [unwindRow_eq_ok_iff]
  constructor
  · rintro ⟨_, items, hitems, -⟩
    exact ⟨items, hitems⟩
  · rintro ⟨items, hitems⟩
    obtain ⟨copies, hcopies⟩ :=
      exists_mapM_eq_ok_iff.2 fun item (_ : item ∈ items) ↦ Path.exists_assign_of_lookup hitems item
    exact ⟨copies, items, hitems, hcopies⟩

theorem unwound_of_unwindRow (h : unwindRow f r = .ok copies) : Unwound f r copies := by
  obtain ⟨items, hitems, hcopies⟩ := unwindRow_eq_ok_iff.1 h
  refine ⟨items, hitems, (mapM_eq_ok_iff.1 hcopies).imp fun item copy hcopy ↦ ?_⟩
  exact ⟨Path.lookup_of_assign hcopy, fun name hname ↦ Path.get?_of_assign hcopy hname⟩

/-- What the path leads to in all copies, one behind the other, are the arrays of the rows. -/
theorem exists_arrays_of_unwound {pieces : List (List Record)}
    (h : List.Forall₂ (Unwound f) rows pieces) :
    ∃ arrays, List.Forall₂ (fun r items ↦ f.lookup r = .ok (.array items)) rows arrays ∧
      f.extract pieces.flatten = .ok arrays.flatten := by
  induction h with
  | nil => exact ⟨[], .nil, rfl⟩
  | @cons r copies rows pieces hcopies _ ih =>
    obtain ⟨items, hitems, hcopies⟩ := hcopies
    obtain ⟨arrays, harrays, hextract⟩ := ih
    refine ⟨items :: arrays, .cons hitems harrays, ?_⟩
    rw [Path.extract, mapM_eq_ok_iff] at hextract ⊢
    exact List.rel_append (hcopies.flip.imp fun _ _ hcopy ↦ hcopy.1) hextract

theorem unwind_of_rows (hrows : s.rows? = some rows) (f : Path) :
    s.unwind f =
      (rows.mapM (unwindRow f) >>= fun pieces ↦ .ok (.records pieces.flatten)) := by
  rw [unwind, State.rows, hrows]
  rfl

end State

namespace Stage

open State (Unwound)

variable {s : State} {rows : List Record}

/-- Rows are unwound exactly if a path leads to an array in each of them. This gives records, one
for each item: the rows in their order, each as its copies in the order of the items. The path leads
to all items of the arrays one behind the other, and the other fields are left alone. -/
theorem unwind_expands_arrays (hrows : s.rows? = some rows) (f : Path) :
    ((∃ t, (unwind f).run s = .ok t) ↔ ∀ r ∈ rows, ∃ items, f.lookup r = .ok (.array items)) ∧
      ∀ t, (unwind f).run s = .ok t → ∃ pieces arrays, t = .records pieces.flatten ∧
        List.Forall₂ (Unwound f) rows pieces ∧
        List.Forall₂ (fun r items ↦ f.lookup r = .ok (.array items)) rows arrays ∧
        (values f).run t = .ok (.values arrays.flatten) := by
  have hrun : ∀ t, (unwind f).run s = .ok t ↔
      ∃ pieces, rows.mapM (State.unwindRow f) = .ok pieces ∧ t = .records pieces.flatten := by
    intro t
    rw [run, State.unwind_of_rows hrows, bind_eq_ok_iff]
    simp only [Except.ok.injEq, eq_comm]
  constructor
  · simp only [← State.exists_unwindRow_iff, ← exists_mapM_eq_ok_iff, hrun]
    exact ⟨fun ⟨_, pieces, h, _⟩ ↦ ⟨pieces, h⟩, fun ⟨pieces, h⟩ ↦ ⟨_, pieces, h, rfl⟩⟩
  · intro t ht
    obtain ⟨pieces, hpieces, rfl⟩ := (hrun t).1 ht
    have hunwound : List.Forall₂ (Unwound f) rows pieces :=
      (mapM_eq_ok_iff.1 hpieces).imp fun _ _ ↦ State.unwound_of_unwindRow
    obtain ⟨arrays, harrays, hextract⟩ := State.exists_arrays_of_unwound hunwound
    refine ⟨pieces, arrays, rfl, hunwound, harrays, ?_⟩
    rw [run, State.extractValues_of_rows? rfl, hextract, ok_bind]

/-- The first order becomes two, one for each of its tags; the second has no tags and is gone. -/
theorem unwind_expands_arrays_of_tags :
    let row (id : Int64) (tags : Value) : Record :=
      [("id", .integer id), ("order", .object [("tags", tags), ("paid", .boolean true)])]
    let f : Path := ⟨"order.tags", [.field "order", .field "tags"]⟩
    let rows := [row 1 (.array [.string "a", .string "b"]), row 2 (.array [])]
    let unwound := [row 1 (.string "a"), row 1 (.string "b")]
    (State.grouped rows).rows? = some rows ∧
      (∀ r ∈ rows, ∃ items, f.lookup r = .ok (.array items)) ∧
      (unwind f).run (.grouped rows) = .ok (.records unwound) ∧
      ∃ pieces arrays, State.records unwound = .records pieces.flatten ∧
        List.Forall₂ (Unwound f) rows pieces ∧
        List.Forall₂ (fun r items ↦ f.lookup r = .ok (.array items)) rows arrays ∧
        (values f).run (.records unwound) = .ok (.values arrays.flatten) := by
  intro row f rows unwound
  have hrows : (State.grouped rows).rows? = some rows := rfl
  obtain ⟨hiff, hresult⟩ := unwind_expands_arrays hrows f
  have hrun : (unwind f).run (.grouped rows) = .ok (.records unwound) := rfl
  exact ⟨hrows, hiff.1 ⟨_, hrun⟩, hrun, hresult _ hrun⟩

end Stage

end ResourceQuery
