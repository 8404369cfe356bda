import ResourceQuery.Proofs.Expr.Juxtaposition
import ResourceQuery.Proofs.Pipeline.Compilation

/-!
Refining a query. A refinement succeeds exactly if its text is blank or is a query text of which all
clauses that are kept compile, and it fails at the first clause that does not. The clauses of a text
are those that it joins at its top, also where the text is a single conjunction of calls.
-/

set_option autoImplicit false

namespace ResourceQuery

namespace Query

section Clauses

theorem toCall?_eq_some_iff {arg : Arg} {c : Call} : arg.toCall? = some c ↔ arg = c.toArg := by
  cases arg with
  | call name args =>
    cases c
    simp [Arg.toCall?, Call.toArg]
  | value v | sortKey direction key => simp [Arg.toCall?, Call.toArg]

theorem mapM_toCall?_eq_some_iff {args : List Arg} {clauses : List Call} :
    args.mapM Arg.toCall? = some clauses ↔ args = clauses.map Call.toArg := by
  induction args generalizing clauses with
  | nil => simp [eq_comm]
  | cons arg args ih =>
    rw [List.mapM_cons]
    simp only [Option.bind_eq_bind, Option.bind_eq_some_iff, toCall?_eq_some_iff, ih]
    cases clauses <;> simp

theorem topClauses_conjunction {clauses : List Call} (h : clauses ≠ []) :
    topClauses ⟨"and", clauses.map Call.toArg⟩ = clauses := by
  rw [topClauses, mapM_toCall?_eq_some_iff.2 rfl]
  cases clauses with
  | nil => exact absurd rfl h
  | cons clause rest => rfl

/-- Only a conjunction of calls stands for other clauses than itself. -/
theorem topClauses_eq_or (c : Call) :
    topClauses c = [c] ∨ ∃ clauses, clauses ≠ [] ∧ c = ⟨"and", clauses.map Call.toArg⟩ := by
  rw [topClauses]
  split
  · next clause rest hargs =>
    split
    · next hname =>
      refine .inr ⟨clause :: rest, List.cons_ne_nil _ _, ?_⟩
      rw [← mapM_toCall?_eq_some_iff.1 hargs, ← hname]
    · exact .inl rfl
  · exact .inl rfl

/-- The clauses that a call stands for at the top of a text: a conjunction of calls for all of
these, and anything else for itself. -/
inductive TopClauses : Call → List Call → Prop
  | conjunction {clauses : List Call} :
      clauses ≠ [] → TopClauses ⟨"and", clauses.map fun c ↦ .call c.name c.args⟩ clauses
  | single {c : Call} :
      (∀ clauses : List Call, clauses ≠ [] →
        c ≠ ⟨"and", clauses.map fun d ↦ .call d.name d.args⟩) → TopClauses c [c]

theorem topClauses_eq_iff {c : Call} {clauses : List Call} :
    topClauses c = clauses ↔ TopClauses c clauses := by
  constructor
  · rintro rfl
    by_cases hjoins : ∃ clauses, clauses ≠ [] ∧ c = ⟨"and", clauses.map Call.toArg⟩
    · obtain ⟨clauses, hne, rfl⟩ := hjoins
      rw [topClauses_conjunction hne]
      exact .conjunction hne
    · rw [(topClauses_eq_or c).resolve_right hjoins]
      exact .single fun clauses hne heq ↦ hjoins ⟨clauses, hne, heq⟩
  · intro h
    cases h with
    | conjunction hne => exact topClauses_conjunction hne
    | single hother =>
      exact (topClauses_eq_or c).resolve_right fun ⟨clauses, hne, heq⟩ ↦ hother clauses hne heq

end Clauses

section Refinement

variable {q refined : Query} {expr : String}

theorem refine_of_blank (q : Query) (h : Text.allBlank expr.toList = true) :
    q.refine expr = .ok q := by
  rw [refine, if_pos h]

theorem refine_eq_ok_iff :
    q.refine expr = .ok refined ↔ (Text.allBlank expr.toList = true ∧ refined = q) ∨
      ∃ tree stages, parse expr = .ok tree ∧
        CompilesTo q.options.maxLimit (keptClauses q.options tree) stages ∧
        refined = q.extend expr (keptClauses q.options tree) stages := by
  cases hparse : parse expr with
  | error e =>
    rw [refine, hparse]
    cases Text.allBlank expr.toList <;> simp [eq_comm]
  | ok tree =>
    have hblank := Grammar.not_blank_of_parse hparse
    rw [refine, hparse]
    simp only [hblank, Bool.false_eq_true, if_false, false_and, false_or, Except.ok.injEq,
      exists_and_left, exists_eq_left', ← @compileFrom_eq_ok_iff _ q.pipeline.length]
    cases compileFrom q.options.maxLimit q.pipeline.length (keptClauses q.options tree) with
    | error e => simp
    | ok stages => simp [eq_comm]

theorem exists_clauses_of_refine (hblank : Text.allBlank expr.toList = false)
    (h : q.refine expr = .ok refined) : ∃ cs stages, Grammar.Clauses cs (Lexeme.tokens expr) ∧
      CompilesTo q.options.maxLimit (keptClauses q.options (Call.conjunction cs)) stages ∧
      refined = q.extend expr (keptClauses q.options (Call.conjunction cs)) stages := by
  obtain ⟨hblank', -⟩ | ⟨tree, stages, htree, hstages, hrefined⟩ := refine_eq_ok_iff.1 h
  · rw [hblank] at hblank'
    cases hblank'
  · obtain ⟨cs, hcs, rfl⟩ := Grammar.parse_eq_ok_iff_clauses.1 htree
    exact ⟨cs, stages, hcs, hstages, hrefined⟩

theorem refine_of_parse {tree : Call} {stages : List Stage} (hparse : parse expr = .ok tree)
    (hstages : compileFrom q.options.maxLimit q.pipeline.length (keptClauses q.options tree) =
      .ok stages) :
    q.refine expr = .ok (q.extend expr (keptClauses q.options tree) stages) :=
  refine_eq_ok_iff.2 (.inr ⟨tree, stages, hparse, compileFrom_eq_ok_iff.1 hstages, rfl⟩)

theorem refine_eq_error_iff {fault : EvalError} :
    q.refine expr = .error (.eval fault) ↔ ∃ tree k clause source, parse expr = .ok tree ∧
      FailsToCompileAt q.options.maxLimit (keptClauses q.options tree) k clause source ∧
      fault = .stage (q.pipeline.length + k) clause.name source := by
  cases hparse : parse expr with
  | error e =>
    rw [refine, hparse]
    cases Text.allBlank expr.toList <;> simp
  | ok tree =>
    have hblank := Grammar.not_blank_of_parse hparse
    rw [refine, hparse]
    simp only [hblank, Bool.false_eq_true, if_false, Except.ok.injEq, exists_and_left,
      exists_eq_left', ← compileFrom_eq_error_iff]
    cases compileFrom q.options.maxLimit q.pipeline.length (keptClauses q.options tree) with
    | error e => simp
    | ok stages => simp

/-- A refinement fails with a syntax error exactly if its text is not blank and has this error. -/
theorem refine_eq_parse_error_iff {fault : ParseError} :
    q.refine expr = .error (.parse fault) ↔
      Text.allBlank expr.toList = false ∧ parse expr = .error fault := by
  rw [refine]
  cases Text.allBlank expr.toList with
  | true => simp
  | false =>
    cases parse expr with
    | error e => simp
    | ok tree =>
      simp only [Bool.false_eq_true, if_false, true_and]
      cases compileFrom q.options.maxLimit q.pipeline.length (keptClauses q.options tree) <;> simp

end Refinement

end Query

end ResourceQuery
