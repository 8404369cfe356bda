import ResourceQuery.Pipeline.Filter
import ResourceQuery.Proofs.Except

/-!
The order of the conditions of `and` and of `or`. A test stops at the first condition that decides
it, so that conditions behind this one are not tested and cannot fail. The answer is the same in
every order in which there is one. Whether there is one depends on the order exactly if some
condition decides the test and some condition cannot be tested.
-/

set_option autoImplicit false

namespace ResourceQuery.Predicate

variable {r : Record} {decisive answer : Bool} {p : Predicate} {ps qs : List Predicate}

/-- A disjunction, which a condition that holds decides, or a conjunction, which one that does not
hold decides. -/
def joined (decisive : Bool) (ps : List Predicate) : Predicate :=
  if decisive then .or ps else .and ps

theorem test_joined_nil (r : Record) (decisive : Bool) :
    (joined decisive []).test r = .ok !decisive := by
  cases decisive <;> rfl

theorem test_joined_cons (r : Record) (decisive : Bool) (p : Predicate) (ps : List Predicate) :
    (joined decisive (p :: ps)).test r = p.test r >>= fun holds ↦
      if holds = decisive then .ok decisive else (joined decisive ps).test r := by
  cases decisive with
  | false =>
    simp only [joined, test, testAll, Bool.false_eq_true, if_false]
    congr 1
    funext holds
    cases holds <;> rfl
  | true =>
    simp only [joined, test, testAny, if_true]
    rfl

theorem test_joined_of_decisive (h : p.test r = .ok decisive) (ps : List Predicate) :
    (joined decisive (p :: ps)).test r = .ok decisive := by
  rw [test_joined_cons, h, ok_bind, if_pos rfl]

theorem test_joined_of_not_decisive (h : p.test r = .ok !decisive) (ps : List Predicate) :
    (joined decisive (p :: ps)).test r = (joined decisive ps).test r := by
  rw [test_joined_cons, h, ok_bind, if_neg (by simp)]

theorem test_joined_of_error {e : EvalError} (h : p.test r = .error e) (ps : List Predicate) :
    (joined decisive (p :: ps)).test r = .error e := by
  rw [test_joined_cons, h, error_bind]

/-- What a condition may do to the test that it is part of. -/
theorem test_cases (p : Predicate) (r : Record) (decisive : Bool) :
    p.test r = .ok decisive ∨ p.test r = .ok (!decisive) ∨ ∃ e, p.test r = .error e := by
  rcases p.test r with e | answer
  · exact .inr (.inr ⟨e, rfl⟩)
  · cases answer <;> cases decisive <;> simp

/-- No condition decides the test exactly if all of them are tested without doing so. -/
theorem test_joined_eq_not_iff :
    (joined decisive ps).test r = .ok (!decisive) ↔ ∀ p ∈ ps, p.test r = .ok (!decisive) := by
  induction ps with
  | nil => simp [test_joined_nil]
  | cons p ps ih =>
    rw [List.forall_mem_cons, ← ih]
    obtain h | h | ⟨e, h⟩ := test_cases p r decisive
    · simp [test_joined_of_decisive h, h]
    · simp [test_joined_of_not_decisive h, h]
    · simp [test_joined_of_error h, h]

theorem exists_of_test_joined (h : (joined decisive ps).test r = .ok decisive) :
    ∃ p ∈ ps, p.test r = .ok decisive := by
  induction ps with
  | nil => simp [test_joined_nil] at h
  | cons p ps ih =>
    obtain hp | hp | ⟨e, hp⟩ := test_cases p r decisive
    · exact ⟨p, List.mem_cons_self, hp⟩
    · rw [test_joined_of_not_decisive hp] at h
      obtain ⟨q, hq, hdecides⟩ := ih h
      exact ⟨q, List.mem_cons_of_mem p hq, hdecides⟩
    · rw [test_joined_of_error hp] at h
      cases h

/-- A condition that decides the test is reached if those before it can be tested. -/
theorem test_joined_of_exists (htestable : ∀ p ∈ ps, ∃ answer, p.test r = .ok answer)
    (h : ∃ p ∈ ps, p.test r = .ok decisive) : (joined decisive ps).test r = .ok decisive := by
  induction ps with
  | nil => simp at h
  | cons p ps ih =>
    rw [List.forall_mem_cons] at htestable
    obtain hp | hp | ⟨e, hp⟩ := test_cases p r decisive
    · exact test_joined_of_decisive hp ps
    · rw [test_joined_of_not_decisive hp]
      refine ih htestable.2 ?_
      simpa [hp] using h
    · simp [hp] at htestable

/-- Whether joining conditions in any order gives the same answer, or no answer in any order. -/
def OrderFree (join : List Predicate → Predicate) (ps : List Predicate) (r : Record) : Prop :=
  ∀ qs, qs.Perm ps → ∀ answer, (join qs).test r = .ok answer ↔ (join ps).test r = .ok answer

theorem exists_perm_cons (h : p ∈ ps) : ∃ rest, (p :: rest).Perm ps := by
  obtain ⟨before, after, rfl⟩ := List.append_of_mem h
  exact ⟨before ++ after, List.perm_middle.symm⟩

theorem orderFree_joined_iff (decisive : Bool) (ps : List Predicate) (r : Record) :
    OrderFree (joined decisive) ps r ↔
      (∀ p ∈ ps, p.test r ≠ .ok decisive) ∨ ∀ p ∈ ps, ∃ answer, p.test r = .ok answer := by
  constructor
  · intro h
    by_contra hmixed
    push Not at hmixed
    obtain ⟨⟨p, hp, hdecides⟩, q, hq, hfails⟩ := hmixed
    obtain ⟨afterDecisive, hdecisive⟩ := exists_perm_cons hp
    obtain ⟨afterFailing, hfailing⟩ := exists_perm_cons hq
    have hanswer : (joined decisive ps).test r = .ok decisive :=
      (h _ hdecisive decisive).1 (test_joined_of_decisive hdecides _)
    obtain hq | hq | ⟨e, hq⟩ := test_cases q r decisive
    · exact hfails _ hq
    · exact hfails _ hq
    · have hnone := (h _ hfailing decisive).2 hanswer
      rw [test_joined_of_error hq] at hnone
      cases hnone
  · intro h qs hperm answer
    have hdecides : ∀ list : List Predicate, list.Perm ps →
        ((joined decisive list).test r = .ok decisive ↔ ∃ p ∈ ps, p.test r = .ok decisive) := by
      intro list hlist
      simp only [← hlist.mem_iff] at h ⊢
      refine ⟨exists_of_test_joined, fun hexists ↦ ?_⟩
      obtain hnone | htestable := h
      · obtain ⟨p, hp, hdecides⟩ := hexists
        exact absurd hdecides (hnone p hp)
      · exact test_joined_of_exists htestable hexists
    by_cases hanswer : answer = decisive
    · rw [hanswer, hdecides qs hperm, hdecides ps (.refl ps)]
    · rw [Bool.eq_not_of_ne hanswer]
      simp only [test_joined_eq_not_iff, hperm.mem_iff]

theorem test_joined_ne_of_perm (hperm : qs.Perm ps)
    (h : (joined decisive qs).test r = .ok decisive) :
    (joined decisive ps).test r ≠ .ok (!decisive) := by
  intro hnot
  obtain ⟨p, hp, hdecides⟩ := exists_of_test_joined h
  have hself := test_joined_eq_not_iff.1 hnot p (hperm.mem_iff.1 hp)
  rw [hdecides] at hself
  simp at hself

/-- Two orders in which there is an answer have the same answer. -/
theorem answer_unique (decisive : Bool) (hperm : qs.Perm ps) {a b : Bool}
    (ha : (joined decisive qs).test r = .ok a) (hb : (joined decisive ps).test r = .ok b) :
    a = b := by
  by_contra hne
  by_cases hdecisive : a = decisive
  · subst hdecisive
    exact test_joined_ne_of_perm hperm ha (Bool.eq_not_of_ne (Ne.symm hne) ▸ hb)
  · obtain rfl : b = decisive := by
      rw [Bool.eq_not_of_ne (Ne.symm hne), Bool.eq_not_of_ne hdecisive, Bool.not_not]
    exact test_joined_ne_of_perm hperm.symm hb (Bool.eq_not_of_ne hne ▸ ha)

/-- What the order of conditions changes. Two orders in which there is an answer have the same
answer. If there is one in some orders and none in others, then some condition decides the test,
which is one that does not hold for `and` and one that holds for `or`, and some condition cannot be
tested. -/
theorem orderFree_iff (ps : List Predicate) (r : Record) :
    (OrderFree .and ps r ↔
      (∀ p ∈ ps, p.test r ≠ .ok false) ∨ ∀ p ∈ ps, ∃ answer, p.test r = .ok answer) ∧
    (OrderFree .or ps r ↔
      (∀ p ∈ ps, p.test r ≠ .ok true) ∨ ∀ p ∈ ps, ∃ answer, p.test r = .ok answer) ∧
    ∀ qs, qs.Perm ps → ∀ a b,
      ((and qs).test r = .ok a → (and ps).test r = .ok b → a = b) ∧
      ((or qs).test r = .ok a → (or ps).test r = .ok b → a = b) :=
  ⟨orderFree_joined_iff false ps r, orderFree_joined_iff true ps r, fun _ hperm _ _ ↦
    ⟨answer_unique false hperm, answer_unique true hperm⟩⟩

/-- A condition on a field that is not there matters only where it is tested first. -/
theorem and_not_orderFree :
    ¬ ∀ (ps : List Predicate) (r : Record), ps ≠ [] → OrderFree .and ps r := by
  intro h
  let onAge : Predicate := .compare .eq ⟨"age", [.field "age"]⟩ (.literal (.integer 30))
  let onCity : Predicate := .compare .eq ⟨"city", [.field "city"]⟩ (.literal (.string "Rome"))
  have hfirst : (and [onAge, onCity]).test [("age", .integer 41)] = .ok false := by decide +kernel
  have hsecond := (h [onAge, onCity] [("age", .integer 41)] (by simp) _ (.swap onAge onCity [])
    false).2 hfirst
  cases hsecond

end ResourceQuery.Predicate
