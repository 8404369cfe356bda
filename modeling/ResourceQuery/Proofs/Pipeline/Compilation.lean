import Mathlib.Data.List.Forall2
import Mathlib.Data.Nat.Basic
import Mathlib.Tactic.Tauto
import ResourceQuery.Proofs.Except
import ResourceQuery.Query

/-!
What compilation gives. A stage has the operator that its call names. A call that compiles as a
condition compiles as the filter by it, and the conjunction of several calls as the filter by the
conjunction of their conditions. Clauses are compiled in their order, and the first that fails is
reported with its position.
-/

set_option autoImplicit false

namespace ResourceQuery

namespace Compile

variable {args : List Arg} {stage : Stage}

theorem lookup_eq_ok_iff {name : String} {op : Operator} :
    lookup name = .ok op ↔ op.name = name := by
  constructor
  · intro h
    unfold lookup at h
    split at h
    · next hfound =>
      cases h
      simpa using List.find?_some hfound
    · cases h
  · rintro rfl
    rw [lookup, Operator.ofName?_name]

theorem exists_of_limit {maxLimit : Option Nat} (h : limit maxLimit args = .ok stage) :
    ∃ asked start, stage = .limit (minBound asked maxLimit) start := by
  unfold limit at h
  split at h
  all_goals simp only [bind_eq_ok_iff, pure_eq_ok, Except.ok.injEq, reduceCtorEq] at h
  · obtain ⟨_, _, rfl⟩ := h
    exact ⟨_, _, rfl⟩
  · obtain ⟨_, _, _, _, rfl⟩ := h
    exact ⟨_, _, rfl⟩

theorem pos_of_sliceStep {arg : Arg} {step : Nat} (h : sliceStep arg = .ok step) : 0 < step := by
  obtain ⟨n?, -, h⟩ := bind_eq_ok_iff.1 h
  cases n? with
  | none =>
    cases h
    exact Nat.one_pos
  | some n =>
    dsimp only at h
    split at h
    · next hpos =>
      cases h
      exact Int.natAbs_pos.2 (Int.ne_of_gt hpos)
    · cases h

theorem exists_of_slice (h : slice args = .ok stage) :
    ∃ start stop step, 0 < step ∧ stage = .slice start stop step := by
  unfold slice at h
  split at h
  all_goals simp only [bind_eq_ok_iff, pure_eq_ok, Except.ok.injEq, reduceCtorEq] at h
  · exact ⟨_, _, _, Nat.one_pos, h.symm⟩
  · obtain ⟨_, _, rfl⟩ := h
    exact ⟨_, _, _, Nat.one_pos, rfl⟩
  · obtain ⟨_, _, _, _, rfl⟩ := h
    exact ⟨_, _, _, Nat.one_pos, rfl⟩
  · obtain ⟨_, _, _, _, step, hstep, rfl⟩ := h
    exact ⟨_, _, _, pos_of_sliceStep hstep, rfl⟩

theorem exists_of_index (h : index args = .ok stage) : ∃ n, stage = .index n := by
  unfold index at h
  split at h
  · obtain ⟨n?, _, h⟩ := bind_eq_ok_iff.1 h
    cases n? with
    | some n => exact ⟨n, (Except.ok.inj h).symm⟩
    | none => cases h
  · cases h

theorem function_of_reducer {function : Reduction} {r : Reducer}
    (h : reducer function args = .ok r) : r.function = function := by
  unfold reducer at h
  obtain ⟨_, _, h⟩ := bind_eq_ok_iff.1 h
  split at h
  · cases h
    rfl
  · cases h
    rfl
  · obtain ⟨_, _, h⟩ := bind_eq_ok_iff.1 h
    cases h
    rfl

theorem exists_of_aggregate (h : aggregate args = .ok stage) :
    ∃ key first rest reducers, innerReducers [] (first :: rest) = .ok reducers ∧
      stage = .aggregate key reducers := by
  unfold aggregate at h
  split at h
  · simp only [bind_eq_ok_iff, pure_eq_ok, Except.ok.injEq] at h
    obtain ⟨_, _, reducers, hreducers, rfl⟩ := h
    exact ⟨_, _, _, reducers, hreducers, rfl⟩
  · cases h

theorem eq_of_noArgs {op : Operator} {only : Stage} (h : noArgs op only args = .ok stage) :
    stage = only := by
  obtain ⟨_, _, h⟩ := bind_eq_ok_iff.1 h
  exact (Except.ok.inj h).symm

theorem lookup_of_predicate {parent : Operator} {name : String} {p : Predicate}
    (h : predicate parent (.call name args) = .ok p) : lookup name = .ok p.operator := by
  rw [predicate] at h
  obtain ⟨op, hop, h⟩ := bind_eq_ok_iff.1 h
  rw [hop]
  cases op with
  | comparison comparison =>
    simp only [bind_eq_ok_iff, pure_eq_ok, Except.ok.injEq] at h
    obtain ⟨_, _, _, _, _, _, rfl⟩ := h
    rfl
  | membership negated | containment negated =>
    obtain ⟨⟨left, right⟩, _, h⟩ := bind_eq_ok_iff.1 h
    dsimp only at h
    split at h
    · simp only [bind_eq_ok_iff, pure_eq_ok, Except.ok.injEq] at h
      obtain ⟨_, _, rfl⟩ := h
      rfl
    · cases h
  | and | or =>
    simp only [bind_eq_ok_iff, pure_eq_ok, Except.ok.injEq] at h
    obtain ⟨_, _, _, _, rfl⟩ := h
    rfl
  | _ => cases h

theorem predicates_eq_ok_iff {parent : Operator} {clauses : List Call} {ps : List Predicate} :
    predicates parent (clauses.map Call.toArg) = .ok ps ↔
      List.Forall₂ (fun c p ↦ c.compilePredicate = .ok p) clauses ps := by
  induction clauses generalizing ps with
  | nil => simp [predicates, eq_comm]
  | cons c clauses ih =>
    have hhead : predicate parent c.toArg = c.compilePredicate := by
      rw [Call.compilePredicate, Call.toArg, predicate, predicate]
    rw [List.map_cons, predicates, hhead]
    simp only [bind_eq_ok_iff, pure_eq_ok, Except.ok.injEq, ih, List.forall₂_cons_left_iff]
    constructor
    · rintro ⟨p, hp, ps, hps, rfl⟩
      exact ⟨p, ps, hp, hps, rfl⟩
    · rintro ⟨p, ps, hp, hps, rfl⟩
      exact ⟨p, hp, ps, hps, rfl⟩

end Compile

namespace Call

open Compile

theorem lookup_of_compile {maxLimit : Option Nat} {c : Call} {stage : Stage}
    (h : c.compile maxLimit = .ok stage) : lookup c.name = .ok stage.operator := by
  rw [compile] at h
  obtain ⟨op, hop, h⟩ := bind_eq_ok_iff.1 h
  rw [hop]
  cases op with
  | comparison _ | membership _ | containment _ | and | or =>
    obtain ⟨p, hp, h⟩ := bind_eq_ok_iff.1 h
    cases h
    exact hop.symm.trans (lookup_of_predicate hp)
  | select =>
    obtain ⟨_, _, h⟩ := bind_eq_ok_iff.1 h
    obtain ⟨_, _, h⟩ := bind_eq_ok_iff.1 h
    cases h
    rfl
  | values | unwind | key | sort =>
    obtain ⟨_, _, h⟩ := bind_eq_ok_iff.1 h
    cases h
    rfl
  | limit =>
    obtain ⟨_, _, rfl⟩ := exists_of_limit h
    rfl
  | slice =>
    obtain ⟨_, _, _, _, rfl⟩ := exists_of_slice h
    rfl
  | index =>
    obtain ⟨_, rfl⟩ := exists_of_index h
    rfl
  | distinct | first | one =>
    obtain rfl := eq_of_noArgs h
    rfl
  | reduction function =>
    obtain ⟨r, hr, h⟩ := bind_eq_ok_iff.1 h
    cases h
    rw [Stage.operator, function_of_reducer hr]
  | aggregate =>
    obtain ⟨_, _, _, _, _, rfl⟩ := exists_of_aggregate h
    rfl

/-- A stage has the name of the call that it is compiled from. -/
theorem name_of_compile {maxLimit : Option Nat} {c : Call} {stage : Stage}
    (h : c.compile maxLimit = .ok stage) : stage.name = c.name :=
  lookup_eq_ok_iff.1 (lookup_of_compile h)

theorem compile_of_compilePredicate {c : Call} {p : Predicate} (h : c.compilePredicate = .ok p)
    (maxLimit : Option Nat) : c.compile maxLimit = .ok (.filter p) := by
  rw [compile, lookup_of_predicate h, ok_bind]
  cases p <;> simp [Predicate.operator, h]

/-- A conjunction compiles exactly if each of its clauses is a condition. -/
theorem compile_conjunction_eq_ok_iff {maxLimit : Option Nat} {clauses : List Call} {stage : Stage}
    (h : clauses ≠ []) :
    (Call.mk "and" (clauses.map toArg)).compile maxLimit = .ok stage ↔ ∃ ps,
      List.Forall₂ (fun c p ↦ c.compilePredicate = .ok p) clauses ps ∧
        stage = .filter (.and ps) := by
  have hlookup : lookup "and" = .ok .and := lookup_eq_ok_iff.2 rfl
  have harity : expectArity .and (.atLeast 1) (clauses.map toArg) = .ok () := by
    simpa [expectArity, Arity.admits, Nat.one_le_iff_ne_zero] using h
  simp only [compile, compilePredicate, toArg, predicate, hlookup, ok_bind, harity, bind_eq_ok_iff,
    predicates_eq_ok_iff, pure_eq_ok, Except.ok.injEq]
  constructor
  · rintro ⟨_, ⟨ps, hps, rfl⟩, rfl⟩
    exact ⟨ps, hps, rfl⟩
  · rintro ⟨ps, hps, rfl⟩
    exact ⟨_, ⟨ps, hps, rfl⟩, rfl⟩

end Call

namespace Query

/-- Each clause compiles to the stage in its place. -/
def CompilesTo (maxLimit : Option Nat) : List Call → List Stage → Prop :=
  List.Forall₂ fun c stage ↦ c.compile maxLimit = .ok stage

/-- The clauses before the one at position `k` compile, and that one does not. -/
def FailsToCompileAt (maxLimit : Option Nat) (clauses : List Call) (k : Nat) (clause : Call)
    (source : EvalError) : Prop :=
  clauses[k]? = some clause ∧ (∀ c ∈ clauses.take k, ∃ stage, c.compile maxLimit = .ok stage) ∧
    clause.compile maxLimit = .error source

variable {maxLimit : Option Nat} {position : Nat} {clauses : List Call}

theorem CompilesTo.unique {stages others : List Stage} (h : CompilesTo maxLimit clauses stages)
    (h' : CompilesTo maxLimit clauses others) : stages = others :=
  List.right_unique_forall₂' (fun _ _ _ hb hc ↦ Except.ok.inj (hb.symm.trans hc)) h h'

theorem CompilesTo.getElem? {stages : List Stage} (h : CompilesTo maxLimit clauses stages) {k : Nat}
    {clause : Call} (hk : clauses[k]? = some clause) :
    ∃ stage, stages[k]? = some stage ∧ clause.compile maxLimit = .ok stage := by
  obtain ⟨hlt, rfl⟩ := List.getElem?_eq_some_iff.1 hk
  have hlt' : k < stages.length := h.length_eq ▸ hlt
  exact ⟨stages[k], List.getElem?_eq_getElem hlt', h.get hlt hlt'⟩

theorem exists_compilesTo_iff :
    (∃ stages, CompilesTo maxLimit clauses stages) ↔
      ∀ c ∈ clauses, ∃ stage, c.compile maxLimit = .ok stage :=
  exists_forall₂_iff

theorem exists_compilesTo_append_iff {first second : List Call} :
    (∃ stages, CompilesTo maxLimit (first ++ second) stages) ↔
      (∃ stages, CompilesTo maxLimit first stages) ∧
        ∃ stages, CompilesTo maxLimit second stages := by
  simp only [exists_compilesTo_iff, List.forall_mem_append]

theorem compilesTo_append_iff {first second : List Call} {stages : List Stage} :
    CompilesTo maxLimit (first ++ second) stages ↔ ∃ before behind,
      CompilesTo maxLimit first before ∧ CompilesTo maxLimit second behind ∧
        stages = before ++ behind := by
  induction first generalizing stages with
  | nil => simp [CompilesTo]
  | cons c first ih =>
    simp only [CompilesTo] at ih
    simp only [CompilesTo, List.cons_append, List.forall₂_cons_left_iff, ih]
    constructor
    · rintro ⟨stage, _, hstage, ⟨before, behind, hbefore, hbehind, rfl⟩, rfl⟩
      exact ⟨stage :: before, behind, ⟨stage, before, hstage, hbefore, rfl⟩, hbehind, rfl⟩
    · rintro ⟨_, behind, ⟨stage, before, hstage, hbefore, rfl⟩, hbehind, rfl⟩
      exact ⟨stage, _, hstage, ⟨before, behind, hbefore, hbehind, rfl⟩, rfl⟩

theorem compilesTo_conjunction_iff (h : clauses ≠ []) {stages : List Stage} :
    CompilesTo maxLimit [⟨"and", clauses.map Call.toArg⟩] stages ↔ ∃ ps,
      List.Forall₂ (fun c p ↦ c.compilePredicate = .ok p) clauses ps ∧
        stages = [.filter (.and ps)] := by
  simp only [CompilesTo, List.forall₂_cons_left_iff, List.forall₂_nil_left_iff,
    Call.compile_conjunction_eq_ok_iff h]
  constructor
  · rintro ⟨_, _, ⟨ps, hps, rfl⟩, rfl, rfl⟩
    exact ⟨ps, hps, rfl⟩
  · rintro ⟨ps, hps, rfl⟩
    exact ⟨_, _, ⟨ps, hps, rfl⟩, rfl, rfl⟩

/-- Conditions that stand as clauses of their own are filters. -/
theorem compilesTo_filters {ps : List Predicate}
    (h : List.Forall₂ (fun c p ↦ c.compilePredicate = .ok p) clauses ps) :
    CompilesTo maxLimit clauses (ps.map .filter) :=
  List.forall₂_map_right_iff.2 (h.imp fun _ _ hp ↦ Call.compile_of_compilePredicate hp maxLimit)

theorem compileFrom_eq_ok_iff {stages : List Stage} :
    compileFrom maxLimit position clauses = .ok stages ↔ CompilesTo maxLimit clauses stages := by
  induction clauses generalizing position stages with
  | nil => simp [compileFrom, CompilesTo, eq_comm]
  | cons c clauses ih =>
    rw [compileFrom, CompilesTo, List.forall₂_cons_left_iff]
    cases hc : c.compile maxLimit with
    | ok stage =>
      simp only [bind_eq_ok_iff, pure_eq_ok, Except.ok.injEq, ih]
      constructor
      · rintro ⟨stages, hstages, rfl⟩
        exact ⟨stage, stages, rfl, hstages, rfl⟩
      · rintro ⟨_, stages, rfl, hstages, rfl⟩
        exact ⟨stages, hstages, rfl⟩
    | error e => simp

theorem failsToCompileAt_zero_iff {c clause : Call} {source : EvalError} :
    FailsToCompileAt maxLimit (c :: clauses) 0 clause source ↔
      c = clause ∧ c.compile maxLimit = .error source := by
  simp only [FailsToCompileAt, List.getElem?_cons_zero, Option.some.injEq, List.take_zero,
    List.not_mem_nil, false_implies, implies_true, true_and]
  exact and_congr_right fun h ↦ by rw [h]

theorem failsToCompileAt_succ_iff {c clause : Call} {source : EvalError} {k : Nat} :
    FailsToCompileAt maxLimit (c :: clauses) (k + 1) clause source ↔
      (∃ stage, c.compile maxLimit = .ok stage) ∧
        FailsToCompileAt maxLimit clauses k clause source := by
  simp only [FailsToCompileAt, List.getElem?_cons_succ, List.take_succ_cons, List.forall_mem_cons]
  tauto

theorem compileFrom_eq_error_iff {e : EvalError} :
    compileFrom maxLimit position clauses = .error e ↔ ∃ k clause source,
      FailsToCompileAt maxLimit clauses k clause source ∧
        e = .stage (position + k) clause.name source := by
  induction clauses generalizing position with
  | nil => simp [compileFrom, FailsToCompileAt]
  | cons c clauses ih =>
    rw [compileFrom, ← Nat.or_exists_add_one]
    simp only [failsToCompileAt_zero_iff, failsToCompileAt_succ_iff]
    cases hc : c.compile maxLimit with
    | ok stage => simp [bind_ok_eq_error_iff, ih, Nat.add_assoc, Nat.add_comm 1]
    | error source =>
      constructor
      · rintro ⟨⟩
        exact .inl ⟨c, source, ⟨rfl, rfl⟩, rfl⟩
      · rintro (⟨_, _, ⟨rfl, ⟨⟩⟩, rfl⟩ | ⟨_, _, _, ⟨⟨_, ⟨⟩⟩, _⟩, _⟩)
        rfl

end Query

end ResourceQuery
