import ResourceQuery.Proofs.Pipeline.Run

/-!
The result of a query: what its stages make of the records, one after the other, cut to the default
limit where no stage is a limit. Cutting never fails, so that a query fails exactly where one of its
stages does.
-/

set_option autoImplicit false

namespace ResourceQuery

open Stage (runAll FailsAt)

namespace State

/-- The first `count` elements of a sequence. A single value has no elements to cut. -/
def truncate (count : Nat) : State → State
  | .records rows => .records (rows.take count)
  | .grouped rows => .grouped (rows.take count)
  | .values vs => .values (vs.take count)
  | .scalar v => .scalar v

theorem run_limit_of_isSequence {s : State} (h : s.isSequence = true) (count : Nat) :
    (Stage.limit (some count) 0).run s = .ok (s.truncate count) := by
  cases s with
  | scalar v => cases h
  | _ => rfl

end State

namespace Query

/-- Whether the default limit cuts what the pipeline has reached: there is one, no stage of the
pipeline is a limit, and what is reached is a sequence. -/
def Cuts (q : Query) (count : Nat) (reached : State) : Prop :=
  q.options.defaultLimit = some count ∧ (∀ count start, Stage.limit count start ∉ q.pipeline) ∧
    ∀ v, reached ≠ .scalar v

/-- What a query makes of what its pipeline has reached. -/
def Delivers (q : Query) (reached s : State) : Prop :=
  (∃ count, q.Cuts count reached ∧ s = reached.truncate count) ∨
    (∀ count, ¬ q.Cuts count reached) ∧ s = reached

section Result

variable {q : Query} {reached s : State}

theorem any_isLimit_eq_false_iff {stages : List Stage} :
    stages.any Stage.isLimit = false ↔ ∀ count start, Stage.limit count start ∉ stages := by
  rw [List.any_eq_false]
  constructor
  · intro h count start hmem
    exact h _ hmem rfl
  · intro h stage hmem hlimit
    cases stage with
    | limit count start => exact h count start hmem
    | _ => cases hlimit

theorem applyDefaultLimit_of_cuts (hlimit : q.hasLimit = q.pipeline.any Stage.isLimit)
    {count : Nat} (h : q.Cuts count reached) :
    q.applyDefaultLimit reached = .ok (reached.truncate count) := by
  obtain ⟨hdefault, hfree, hsequence⟩ := h
  have hseq : reached.isSequence = true := by
    cases reached with
    | scalar v => exact absurd rfl (hsequence v)
    | _ => rfl
  rw [applyDefaultLimit, hdefault, hlimit, any_isLimit_eq_false_iff.2 hfree]
  simp only [hseq, Bool.not_false, Bool.and_self, if_true]
  exact State.run_limit_of_isSequence hseq count

theorem applyDefaultLimit_of_not_cuts (hlimit : q.hasLimit = q.pipeline.any Stage.isLimit)
    (h : ∀ count, ¬ q.Cuts count reached) : q.applyDefaultLimit reached = .ok reached := by
  rw [applyDefaultLimit]
  split
  · next count hdefault =>
    split
    · next hcut =>
      rw [Bool.and_eq_true, Bool.not_eq_true', hlimit, any_isLimit_eq_false_iff] at hcut
      refine absurd ⟨hdefault, hcut.1, ?_⟩ (h count)
      rintro v rfl
      cases hcut.2
    · rfl
  · rfl

theorem applyDefaultLimit_eq_ok_iff (hlimit : q.hasLimit = q.pipeline.any Stage.isLimit) :
    q.applyDefaultLimit reached = .ok s ↔ q.Delivers reached s := by
  by_cases h : ∃ count, q.Cuts count reached
  · obtain ⟨count, hcount⟩ := h
    rw [applyDefaultLimit_of_cuts hlimit hcount, Except.ok.injEq]
    constructor
    · rintro rfl
      exact .inl ⟨count, hcount, rfl⟩
    · rintro (⟨other, hother, rfl⟩ | ⟨hnone, _⟩)
      · rw [Option.some.inj (hcount.1.symm.trans hother.1)]
      · exact absurd hcount (hnone count)
  · rw [not_exists] at h
    rw [applyDefaultLimit_of_not_cuts hlimit h, Except.ok.injEq]
    constructor
    · rintro rfl
      exact .inr ⟨h, rfl⟩
    · rintro (⟨count, hcount, _⟩ | ⟨_, rfl⟩)
      · exact absurd hcount (h count)
      · rfl

theorem result_eq_ok_iff (hlimit : q.hasLimit = q.pipeline.any Stage.isLimit) :
    q.result = .ok s ↔
      ∃ reached, runAll q.pipeline (.records q.records) = .ok reached ∧ q.Delivers reached s := by
  simp only [result, bind_eq_ok_iff, runFrom_eq_ok_iff, applyDefaultLimit_eq_ok_iff hlimit]

theorem exists_delivers (q : Query) (reached : State) : ∃ s, q.Delivers reached s := by
  by_cases h : ∃ count, q.Cuts count reached
  · obtain ⟨count, hcount⟩ := h
    exact ⟨_, .inl ⟨count, hcount, rfl⟩⟩
  · exact ⟨reached, .inr ⟨not_exists.1 h, rfl⟩⟩

theorem result_eq_error_iff (hlimit : q.hasLimit = q.pipeline.any Stage.isLimit)
    {e : EvalError} :
    q.result = .error e ↔ ∃ i stage source, FailsAt q.pipeline (.records q.records) i stage source ∧
      e = .stage i stage.name source := by
  have hrun := @runFrom_eq_error_iff 0 q.pipeline (.records q.records) e
  simp only [Nat.zero_add] at hrun
  rw [← hrun, result]
  cases runFrom 0 q.pipeline (.records q.records) with
  | error source => rfl
  | ok reached =>
    obtain ⟨s, hs⟩ := q.exists_delivers reached
    rw [ok_bind, (applyDefaultLimit_eq_ok_iff hlimit).2 hs]
    simp

end Result

end Query

end ResourceQuery
