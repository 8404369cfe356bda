import Mathlib.Data.Nat.Basic
import ResourceQuery.Proofs.Except
import ResourceQuery.Query

/-!
Running stages one after the other. A pipeline adds to this the position of the stage that fails:
it succeeds with what the stages give, and otherwise names the first stage that fails on what the
ones before it give.
-/

set_option autoImplicit false

namespace ResourceQuery

namespace Stage

/-- Each stage runs on what the one before it gives. -/
def runAll (stages : List Stage) (s : State) : Except EvalError State :=
  stages.foldlM (fun s stage ↦ stage.run s) s

@[simp]
theorem runAll_nil (s : State) : runAll [] s = .ok s :=
  rfl

@[simp]
theorem runAll_cons (stage : Stage) (stages : List Stage) (s : State) :
    runAll (stage :: stages) s = (stage.run s >>= runAll stages) :=
  List.foldlM_cons

theorem runAll_append (first second : List Stage) (s : State) :
    runAll (first ++ second) s = (runAll first s >>= runAll second) :=
  List.foldlM_append

/-- The stages before the one at position `i` succeed, and that one fails on what they give. -/
def FailsAt (stages : List Stage) (s : State) (i : Nat) (stage : Stage) (source : EvalError) :
    Prop :=
  stages[i]? = some stage ∧
    ∃ reached, runAll (stages.take i) s = .ok reached ∧ stage.run reached = .error source

variable {head stage : Stage} {stages : List Stage} {s : State} {source : EvalError}

theorem failsAt_zero_iff :
    FailsAt (head :: stages) s 0 stage source ↔ head = stage ∧ head.run s = .error source := by
  simp only [FailsAt, List.getElem?_cons_zero, Option.some.injEq, List.take_zero, runAll_nil,
    Except.ok.injEq, exists_eq_left']
  exact and_congr_right fun h ↦ by rw [h]

theorem failsAt_succ_iff {i : Nat} :
    FailsAt (head :: stages) s (i + 1) stage source ↔
      ∃ next, head.run s = .ok next ∧ FailsAt stages next i stage source := by
  simp only [FailsAt, List.getElem?_cons_succ, List.take_succ_cons, runAll_cons, bind_eq_ok_iff]
  constructor
  · rintro ⟨hi, reached, ⟨next, hnext, hreached⟩, hsource⟩
    exact ⟨next, hnext, hi, reached, hreached, hsource⟩
  · rintro ⟨next, hnext, hi, reached, hreached, hsource⟩
    exact ⟨hi, reached, ⟨next, hnext, hreached⟩, hsource⟩

end Stage

namespace Query

open Stage (runAll FailsAt)

theorem runFrom_eq_ok_iff {position : Nat} {stages : List Stage} {s t : State} :
    runFrom position stages s = .ok t ↔ runAll stages s = .ok t := by
  induction stages generalizing position s with
  | nil => exact Iff.rfl
  | cons stage stages ih =>
    rw [runFrom, Stage.runAll_cons]
    cases stage.run s with
    | ok next => exact ih
    | error e => simp

theorem runFrom_eq_error_iff {position : Nat} {stages : List Stage} {s : State} {e : EvalError} :
    runFrom position stages s = .error e ↔ ∃ i stage source, FailsAt stages s i stage source ∧
      e = .stage (position + i) stage.name source := by
  induction stages generalizing position s with
  | nil => simp [runFrom, FailsAt]
  | cons head stages ih =>
    rw [runFrom, ← Nat.or_exists_add_one]
    simp only [Stage.failsAt_zero_iff, Stage.failsAt_succ_iff]
    cases head.run s with
    | ok next => simp [ih, Nat.add_assoc, Nat.add_comm 1]
    | error source =>
      constructor
      · rintro ⟨⟩
        exact .inl ⟨head, source, ⟨rfl, rfl⟩, rfl⟩
      · rintro (⟨_, _, ⟨rfl, ⟨⟩⟩, rfl⟩ | ⟨_, _, _, ⟨_, ⟨⟩, _⟩, _⟩)
        rfl

end Query

end ResourceQuery
