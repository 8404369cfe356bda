import ResourceQuery.Proofs.Pipeline.ConditionOrder
import ResourceQuery.Proofs.Value.Equality

/-!
Membership and equality. Membership looks its field up once and asks of each item whether it equals
what is there; a disjunction of equalities looks the field up in each of them and asks whether what
is there equals the item. Equality does not tell its sides apart and a field that cannot be looked
up fails the same way each time, so that the two agree on every record; an empty set is the one that
no condition stands for, because it needs the field nevertheless.
-/

set_option autoImplicit false

namespace ResourceQuery

theorem Path.lookup_nil (p : Path) : p.lookup [] = .error (.missingField p.name) := by
  rw [lookup]
  cases p.segments <;> rfl

namespace Predicate

variable {field : Path} {r : Record}

/-- A comparison of a field with a value that is written in the query. -/
def against (op : Comparison) (field : Path) (v : Value) : Predicate :=
  .compare op field (.literal v)

theorem test_against_of_error {e : EvalError} (h : field.lookup r = .error e) (op : Comparison)
    (v : Value) : (against op field v).test r = .error e := by
  rw [against, test, h, error_bind]

/-- Equality with an item decides a disjunction, and inequality a conjunction, exactly if the item
equals what the field holds. -/
theorem test_against_of_lookup {held : Value} (h : field.lookup r = .ok held) (negated : Bool)
    (v : Value) :
    (against (if negated then .ne else .eq) field v).test r = .ok (v.looseEq held != negated) := by
  rw [against, test, h, ok_bind, operandValue, ok_bind, Value.looseEq_comm held v]
  cases negated <;> simp [Comparison.test]

theorem test_member_of_lookup {held : Value} (h : field.lookup r = .ok held) (negated : Bool)
    (set : List Value) :
    (member negated field set).test r = .ok (set.any (·.looseEq held) != negated) := by
  rw [test, h]
  rfl

theorem test_member_of_error {e : EvalError} (h : field.lookup r = .error e) (negated : Bool)
    (set : List Value) : (member negated field set).test r = .error e := by
  rw [test, h, error_bind]

/-- Where the field is there, membership and the joined comparisons agree on every set. -/
theorem test_member_eq_joined_of_lookup {held : Value} (h : field.lookup r = .ok held)
    (negated : Bool) (set : List Value) :
    (member negated field set).test r =
      (joined (!negated) (set.map (against (if negated then .ne else .eq) field))).test r := by
  induction set with
  | nil =>
    rw [test_member_of_lookup h, List.map_nil, test_joined_nil]
    cases negated <;> rfl
  | cons v set ih =>
    have hv := test_against_of_lookup h negated v
    rw [test_member_of_lookup h] at ih ⊢
    rw [List.map_cons, List.any_cons]
    cases heq : v.looseEq held with
    | true =>
      rw [heq, Bool.true_bne] at hv
      rw [test_joined_of_decisive hv, Bool.true_or, Bool.true_bne]
    | false =>
      have hpassed : (against (if negated then .ne else .eq) field v).test r = .ok (!!negated) := by
        rw [hv, heq, Bool.false_bne, Bool.not_not]
      rw [test_joined_of_not_decisive hpassed, Bool.false_or, ih]

theorem test_member_eq_joined_of_error {e : EvalError} (h : field.lookup r = .error e)
    (negated : Bool) {set : List Value} (hset : set ≠ []) :
    (member negated field set).test r =
      (joined (!negated) (set.map (against (if negated then .ne else .eq) field))).test r := by
  obtain ⟨v, rest, rfl⟩ := List.exists_cons_of_ne_nil hset
  rw [test_member_of_error h, List.map_cons,
    test_joined_of_error (test_against_of_error h _ v)]

/-- Membership is the disjunction of the equalities with the items, and its negation the conjunction
of the inequalities: on every record there is the same answer or the same error. This is so for
every set that is not empty, and for no other. -/
theorem member_eq_comparisons_iff (field : Path) (set : List Value) :
    (∀ r : Record,
      (member false field set).test r = (or (set.map (against .eq field))).test r ∧
      (member true field set).test r = (and (set.map (against .ne field))).test r) ↔
    set ≠ [] := by
  constructor
  · rintro h rfl
    have hmissing := (h []).1
    rw [test_member_of_error field.lookup_nil] at hmissing
    cases hmissing
  · intro hset r
    cases hlookup : field.lookup r with
    | ok held =>
      exact ⟨test_member_eq_joined_of_lookup hlookup false set,
        test_member_eq_joined_of_lookup hlookup true set⟩
    | error e =>
      exact ⟨test_member_eq_joined_of_error hlookup false hset,
        test_member_eq_joined_of_error hlookup true hset⟩

end Predicate

end ResourceQuery
