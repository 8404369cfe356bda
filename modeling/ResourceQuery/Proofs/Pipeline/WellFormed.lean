import ResourceQuery.Proofs.Pipeline.Aggregation

/-!
What stages may rely on. A stage is run without another look at the call that it comes from, so that
compilation has to see to it that a slice moves forward, that limits keep to the bound of the
options, that there is something to select, to join and to reduce, and that no reduction within an
aggregate lacks its field or has the name of another.
-/

set_option autoImplicit false

namespace ResourceQuery

/-- Conditions are joined only where there are some, at every depth. -/
inductive Predicate.Populated : Predicate → Prop
  | compare {op : Comparison} {field : Path} {operand : Operand} :
      Populated (.compare op field operand)
  | member {negated : Bool} {field : Path} {set : List Value} :
      Populated (.member negated field set)
  | contains {negated : Bool} {field : Path} {needle : Value} :
      Populated (.contains negated field needle)
  | and {conditions : List Predicate} :
      conditions ≠ [] → (∀ p ∈ conditions, Populated p) → Populated (.and conditions)
  | or {conditions : List Predicate} :
      conditions ≠ [] → (∀ p ∈ conditions, Populated p) → Populated (.or conditions)

/-- What a stage relies on when it is run, where no limit may count more than `maxLimit`. -/
def Stage.WellFormed (maxLimit : Option Nat) : Stage → Prop
  | .filter predicate => predicate.Populated
  | .select fields => fields ≠ []
  | .limit count _ => ∀ bound ∈ maxLimit, ∃ n ∈ count, n ≤ bound
  | .slice _ _ step => 1 ≤ step
  | .aggregate _ reducers =>
    reducers ≠ [] ∧ (reducers.map Reducer.function).Nodup ∧
      ∀ r ∈ reducers, r.field = none ↔ r.function = .count
  | _ => True

namespace Compile

theorem ne_nil_of_expectArity {op : Operator} {args : List Arg}
    (h : expectArity op (.atLeast 1) args = .ok ()) : args ≠ [] := by
  rintro rfl
  cases h

mutual

/-- A condition is joined from the conditions that its arguments compile to. -/
theorem populated_of_predicate : ∀ {parent : Operator} {arg : Arg} {p : Predicate},
    predicate parent arg = .ok p → p.Populated
  | _, .value _, _, h | _, .sortKey _ _, _, h => by cases h
  | _, .call name args, p, h => by
    have hlookup := lookup_of_predicate h
    cases p with
    | compare => exact .compare
    | member => exact .member
    | contains => exact .contains
    | and conditions | or conditions =>
      rw [predicate, hlookup, ok_bind] at h
      simp only [Predicate.operator, bind_eq_ok_iff, pure_eq_ok, Except.ok.injEq,
        Predicate.and.injEq, Predicate.or.injEq] at h
      obtain ⟨_, harity, _, hconditions, rfl⟩ := h
      obtain ⟨hne, hpopulated⟩ := populated_of_predicates hconditions
      constructor
      · exact hne (ne_nil_of_expectArity harity)
      · exact hpopulated

theorem populated_of_predicates : ∀ {parent : Operator} {args : List Arg} {ps : List Predicate},
    predicates parent args = .ok ps → (args ≠ [] → ps ≠ []) ∧ ∀ p ∈ ps, p.Populated
  | _, [], ps, h => by
    cases h
    exact ⟨absurd rfl, List.forall_mem_nil _⟩
  | parent, arg :: rest, ps, h => by
    rw [predicates] at h
    simp only [bind_eq_ok_iff, pure_eq_ok, Except.ok.injEq] at h
    obtain ⟨p, hp, more, hmore, rfl⟩ := h
    exact ⟨fun _ ↦ List.cons_ne_nil p more,
      List.forall_mem_cons.2 ⟨populated_of_predicate hp, (populated_of_predicates hmore).2⟩⟩

end

theorem exists_minBound_le (asked maxLimit : Option Nat) :
    ∀ bound ∈ maxLimit, ∃ n ∈ minBound asked maxLimit, n ≤ bound := by
  rintro bound rfl
  cases asked with
  | none => exact ⟨bound, rfl, Nat.le_refl bound⟩
  | some n => exact ⟨min n bound, rfl, Nat.min_le_right n bound⟩

theorem innerReducers_ne_nil {seen : List Reduction} {first : Arg} {rest : List Arg}
    {reducers : List Reducer} (h : innerReducers seen (first :: rest) = .ok reducers) :
    reducers ≠ [] := by
  rintro rfl
  rw [innerReducers] at h
  obtain ⟨r, -, h⟩ := bind_eq_ok_iff.1 h
  split at h
  · cases h
  · obtain ⟨_, -, h⟩ := bind_eq_ok_iff.1 h
    cases h

end Compile

namespace Call

open Compile

variable {maxLimit : Option Nat} {c : Call} {stage : Stage}

theorem compilePredicate_of_compile {p : Predicate} (h : c.compile maxLimit = .ok (.filter p)) :
    c.compilePredicate = .ok p := by
  rw [compile, lookup_of_compile h, ok_bind] at h
  cases p with
  | compare | member | contains | and | or =>
    obtain ⟨_, hp, heq⟩ := bind_eq_ok_iff.1 h
    cases heq
    exact hp

/-- A compiled stage has the name of its call and everything that it relies on. -/
theorem wellFormed_of_compile (h : c.compile maxLimit = .ok stage) :
    stage.name = c.name ∧ stage.WellFormed maxLimit := by
  refine ⟨name_of_compile h, ?_⟩
  have hcompiled := h
  rw [compile, lookup_of_compile h, ok_bind] at hcompiled
  cases stage with
  | filter p => exact populated_of_predicate (compilePredicate_of_compile h)
  | select fields =>
    simp only [Stage.operator, bind_eq_ok_iff, pure_eq_ok, Except.ok.injEq, Stage.select.injEq,
      exists_eq_right] at hcompiled
    obtain ⟨_, harity, hfields⟩ := hcompiled
    intro hnil
    rw [hnil, mapM_eq_ok_iff, List.forall₂_nil_right_iff] at hfields
    exact ne_nil_of_expectArity harity hfields
  | limit count start =>
    obtain ⟨asked, _, heq⟩ := exists_of_limit hcompiled
    cases heq
    exact exists_minBound_le asked maxLimit
  | slice start stop step =>
    obtain ⟨_, _, _, hstep, heq⟩ := exists_of_slice hcompiled
    cases heq
    exact hstep
  | aggregate key reducers =>
    obtain ⟨_, _, _, _, hreducers, heq⟩ := exists_of_aggregate hcompiled
    cases heq
    obtain ⟨hfields, hnodup⟩ := innerReducers_spec hreducers
    exact ⟨innerReducers_ne_nil hreducers, hnodup, fun r hr ↦ (hfields r hr).2⟩
  | _ => trivial

/-- An aggregate of two reductions, of which only counting has no field. -/
theorem wellFormed_of_hours :
    let c : Call := ⟨"aggregate", [.value (.string "day"), .call "count" [],
      .call "sum" [.value (.string "hours")]]⟩
    let stage : Stage := .aggregate ⟨"day", [.field "day"]⟩
      [⟨.count, none⟩, ⟨.sum, some ⟨"hours", [.field "hours"]⟩⟩]
    c.compile (some 10) = .ok stage ∧ stage.name = "aggregate" ∧ stage.WellFormed (some 10) := by
  intro c stage
  have hcompile : c.compile (some 10) = .ok stage := rfl
  exact ⟨hcompile, wellFormed_of_compile hcompile⟩

end Call

end ResourceQuery
