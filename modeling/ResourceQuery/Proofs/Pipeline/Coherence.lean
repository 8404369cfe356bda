import Mathlib.Logic.ExistsUnique
import ResourceQuery.Pipeline.Filter
import ResourceQuery.Proofs.Value.Equality

/-!
The six comparison operators together. Equality and order go through values by recursions of their
own: equality asks for items that are equal throughout and goes into objects, the order stops at the
first items that differ and does not compare objects. Wherever the order has an answer, equality has
the same one, so that two values are less, equal or greater, and the operators say which.
-/

set_option autoImplicit false

namespace ResourceQuery

namespace Value

theorem looseEqItems_iff_of_compareItems? {xs ys : List Value} {o : Ordering}
    (h : ∀ x ∈ xs, ∀ y p, compare? x y = some p → (looseEq x y = true ↔ p = .eq))
    (ho : compareItems? xs ys = some o) : looseEqItems xs ys = true ↔ o = .eq := by
  induction xs generalizing ys with
  | nil => cases ys <;> cases ho <;> simp [looseEqItems]
  | cons x xs ih =>
    cases ys with
    | nil =>
      cases ho
      simp [looseEqItems]
    | cons y ys =>
      rw [List.forall_mem_cons] at h
      rw [compareItems?_cons] at ho
      obtain ⟨first, hfirst, ho⟩ := Option.bind_eq_some_iff.1 ho
      rw [looseEqItems, Bool.and_eq_true, h.1 y first hfirst]
      split at ho
      · next heq => rw [ih h.2 ho, and_iff_right heq]
      · next hne =>
        obtain rfl := Option.some.inj ho
        simp [hne]

/-- Equality agrees with the order of values that compare. -/
theorem looseEq_iff_of_compare? {a b : Value} {o : Ordering} (h : compare? a b = some o) :
    looseEq a b = true ↔ o = .eq := by
  induction a using induction_parts generalizing b o with
  | h a ih =>
    by_cases harrays : ∃ xs ys, a = .array xs ∧ b = .array ys
    · obtain ⟨xs, ys, rfl, rfl⟩ := harrays
      rw [compare?] at h
      rw [looseEq]
      refine looseEqItems_iff_of_compareItems? (fun x hx y p hp ↦ ?_) h
      obtain ⟨i, hi⟩ := List.getElem?_of_mem hx
      exact ih (.item i) x hi hp
    · have hleaves := compare?_eq_compareLeaves fun xs ys ha hb ↦ harrays ⟨xs, ys, ha, hb⟩
      obtain ⟨k, hk⟩ := (exists_kind_of_compareLeaves (hleaves.symm.trans h)).1
      rw [looseEq_iff_of_kind hk, h, Option.some.injEq]

end Value

namespace Comparison

variable {left right : Value} {o : Ordering}

/-- Whether an operator answers with yes. -/
def Holds (op : Comparison) (left right : Value) : Prop :=
  op.test left right = .ok true

/-- On values that compare, an operator says whether it admits their order. -/
theorem test_of_compare? (h : left.compare? right = some o) (op : Comparison) :
    op.test left right = .ok (op.admits o) := by
  have heq : left.looseEq right = (o == .eq) := by
    rw [Bool.eq_iff_iff, Value.looseEq_iff_of_compare? h, beq_iff_eq]
  cases op <;> simp [test, admits, heq, h, bne]

theorem holds_iff_of_compare? (h : left.compare? right = some o) (op : Comparison) :
    op.Holds left right ↔ op.admits o = true := by
  rw [Holds, test_of_compare? h, Except.ok.injEq]

theorem existsUnique_admits (o : Ordering) : ∃! op, op ∈ [lt, eq, gt] ∧ op.admits o = true := by
  refine existsUnique_of_exists_of_unique ?_ fun op other hop hother ↦ ?_
  · cases o with
    | lt => exact ⟨lt, by decide⟩
    | eq => exact ⟨eq, by decide⟩
    | gt => exact ⟨gt, by decide⟩
  · revert hop hother
    cases op <;> cases other <;> cases o <;> decide

/-- The operators are coherent on values that compare. Equality is the order of equals; exactly one
of less, equal and greater holds; the other three operators say what these three say, and none of
the six fails. -/
theorem coherent_of_compare? (h : left.compare? right = some o) :
    (left.looseEq right = true ↔ o = .eq) ∧
    (∃! op, op ∈ [lt, eq, gt] ∧ op.Holds left right) ∧
    (le.Holds left right ↔ lt.Holds left right ∨ eq.Holds left right) ∧
    (ge.Holds left right ↔ gt.Holds left right ∨ eq.Holds left right) ∧
    (ne.Holds left right ↔ ¬ eq.Holds left right) ∧
    ∀ op : Comparison, ∃ answer, op.test left right = .ok answer := by
  refine ⟨Value.looseEq_iff_of_compare? h, ?_, ?_, ?_, ?_, fun op ↦ ⟨_, test_of_compare? h op⟩⟩
  all_goals simp only [holds_iff_of_compare? h]
  · exact existsUnique_admits o
  all_goals cases o <;> decide

/-- Items that do not compare do no harm behind items that differ. -/
theorem coherent_of_first_items :
    let left : Value := .array [.integer 1, .object []]
    let right : Value := .array [.decimal (.ofInt64 2), .object []]
    left.compare? right = some .lt ∧
      (left.looseEq right = true ↔ Ordering.lt = .eq) ∧
      (∃! op, op ∈ [lt, eq, gt] ∧ op.Holds left right) ∧
      (le.Holds left right ↔ lt.Holds left right ∨ eq.Holds left right) ∧
      (ge.Holds left right ↔ gt.Holds left right ∨ eq.Holds left right) ∧
      (ne.Holds left right ↔ ¬ eq.Holds left right) ∧
      ∀ op : Comparison, ∃ answer, op.test left right = .ok answer := by
  intro left right
  have h : left.compare? right = some .lt := by decide +kernel
  exact ⟨h, coherent_of_compare? h⟩

end Comparison

end ResourceQuery
