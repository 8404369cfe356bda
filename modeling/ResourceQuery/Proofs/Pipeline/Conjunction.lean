import ResourceQuery.Proofs.Pipeline.Run

/-!
Filtering by a conjunction. A conjunction tests each row with one condition after the other, while
a pipeline of filters tests all rows with one condition before it goes on to the next. Both test the
same conditions on the same rows, so that they keep the same rows or both fail, though not always on
the same row.
-/

set_option autoImplicit false

namespace ResourceQuery

namespace Predicate

theorem toOption_keep_cons (p : Predicate) (r : Record) (rest : List Record) :
    (p.keep (r :: rest)).toOption = (p.test r).toOption.bind fun holds ↦
      (p.keep rest).toOption.map fun kept ↦ if holds then r :: kept else kept := by
  rw [keep, toOption_bind]
  congr 1
  funext holds
  cases holds with
  | false => exact Option.map_id'.symm ▸ rfl
  | true => exact toOption_bind_pure _ _

theorem toOption_test_and_cons (r : Record) (p : Predicate) (ps : List Predicate) :
    ((and (p :: ps)).test r).toOption = (p.test r).toOption.bind fun holds ↦
      if holds then ((and ps).test r).toOption else some false := by
  rw [test, testAll, toOption_bind, test]
  congr 1
  funext holds
  cases holds <;> rfl

theorem keep_and_nil (rows : List Record) : (and []).keep rows = .ok rows := by
  induction rows with
  | nil => rfl
  | cons r rest ih => rw [keep, test, testAll, ok_bind, if_pos rfl, ih]; rfl

/-- Rows that the first condition of a conjunction drops are not tested any further, and a failure
of one half of the conjunction is a failure of the whole. -/
theorem toOption_keep_and_cons (p : Predicate) (ps : List Predicate) (rows : List Record) :
    ((and (p :: ps)).keep rows).toOption =
      (p.keep rows).toOption.bind fun kept ↦ ((and ps).keep kept).toOption := by
  induction rows with
  | nil => rfl
  | cons r rest ih =>
    rw [toOption_keep_cons, toOption_test_and_cons, toOption_keep_cons, ih]
    rcases (p.test r).toOption with _ | holds
    · rfl
    cases holds with
    | false => simp
    | true =>
      rcases (p.keep rest).toOption with _ | kept
      · simp
      · simp [toOption_keep_cons]

end Predicate

namespace Stage

theorem toOption_run_filter_and_cons (p : Predicate) (ps : List Predicate) (s : State) :
    ((filter (.and (p :: ps))).run s).toOption =
      ((filter p).run s).toOption.bind fun t ↦ ((filter (.and ps)).run t).toOption := by
  cases s with
  | records rows | grouped rows =>
    simp only [run, State.filter, toOption_bind_pure, Predicate.toOption_keep_and_cons]
    rcases (p.keep rows).toOption with _ | kept
    · rfl
    · exact (toOption_bind_pure _ _).symm
  | values vs | scalar v => rfl

/-- What a filter leaves is a sequence of rows, which a conjunction of nothing keeps as it is. -/
theorem run_filter_and_nil_of_run_filter {p : Predicate} {s t : State}
    (h : (filter p).run s = .ok t) : (filter (.and [])).run t = .ok t := by
  cases s with
  | records rows | grouped rows =>
    obtain ⟨kept, -, hkept⟩ := bind_eq_ok_iff.1 h
    cases hkept
    simp [run, State.filter, Predicate.keep_and_nil]
  | values vs | scalar v => cases h

theorem toOption_runAll_filters (p : Predicate) (ps : List Predicate) (s : State) :
    (runAll ((p :: ps).map filter) s).toOption = ((filter (.and (p :: ps))).run s).toOption := by
  induction ps generalizing p s with
  | nil =>
    rw [toOption_run_filter_and_cons, List.map_singleton, runAll_cons, toOption_bind]
    cases h : (filter p).run s with
    | ok t => exact congrArg Except.toOption (run_filter_and_nil_of_run_filter h).symm
    | error e => rfl
  | cons q ps ih =>
    rw [toOption_run_filter_and_cons, List.map_cons, runAll_cons, toOption_bind]
    simp only [ih]

end Stage

/-- Filtering by a conjunction gives what filtering by its conditions one after the other gives, and
fails where that fails. -/
theorem run_filter_and_iff (p : Predicate) (ps : List Predicate) (position : Nat) (s t : State) :
    (Stage.filter (.and (p :: ps))).run s = .ok t ↔
      Query.runFrom position ((p :: ps).map .filter) s = .ok t := by
  rw [Query.runFrom_eq_ok_iff, ← toOption_eq_some_iff, ← toOption_eq_some_iff,
    Stage.toOption_runAll_filters]

end ResourceQuery
