import ResourceQuery.CommandLine.Command
import ResourceQuery.Proofs.Expr.ErrorPosition
import ResourceQuery.Proofs.Query.Refinement
import ResourceQuery.Proofs.Value.JsonData

/-!
Checking the syntax of a query alone. A check that only looks at the syntax and one that runs the
query decide apart from each other whether there is a query at all. They agree: where the input can
be queried, both fail with the same syntax errors, and no blank text is a syntax error.
-/

set_option autoImplicit false

namespace ResourceQuery

namespace Query

theorem answer_eq_parse_error_iff {q : Query} {expr : String} {fault : ParseError} :
    q.answer expr = .error (.parse fault) ↔
      Text.allBlank expr.toList = false ∧ parse expr = .error fault := by
  rw [answer, ← @refine_eq_parse_error_iff q]
  cases q.refine expr with
  | error e => simp only [Except.error.injEq]
  | ok refined =>
    dsimp only
    cases refined.result <;> simp

/-- A text is blank for a query where it is blank for the parser. -/
theorem refine_cause_ne_empty {q : Query} {expr : String} {fault : ParseError}
    (h : q.refine expr = .error (.parse fault)) : fault.cause ≠ .empty := by
  obtain ⟨hblank, hparse⟩ := refine_eq_parse_error_iff.1 h
  intro hempty
  rw [ParseError.allBlank_of_parse hparse hempty] at hblank
  cases hblank

end Query

namespace CommandLine

theorem parseQuery_eq_error_iff {text : String} {e : CommandError} :
    parseQuery text = .error e ↔
      ∃ fault, e = .query (.parse fault) ∧ parse text = .error fault := by
  rw [parseQuery]
  cases parse text <;> simp [eq_comm]

/-- Objects can be queried. -/
theorem queryOfJson_of_objects {input : String} {rows : List (List (String × Json))}
    (h : Json.read? input = some (.array (rows.map .object))) (options : QueryOptions) :
    queryOfJson input options = .ok { records := rows.map Value.ofJsonFields, options } := by
  rw [queryOfJson, h]
  dsimp only
  rw [Record.listOfJson_objects]

namespace Check

/-- Without running the query, it fails with syntax errors only. -/
theorem run_syntaxOnly_eq_error_iff {c : Check} (h : c.syntaxOnly = true) {e : CommandError} :
    c.run = .error e ↔ ∃ fault, e = .query (.parse fault) ∧
      Text.allBlank c.query.toList = false ∧ parse c.query = .error fault := by
  rw [run, if_pos h]
  cases Text.allBlank c.query.toList with
  | true => simp
  | false =>
    simp only [Bool.false_eq_true, if_false, true_and, pure_eq_ok, bind_ok_eq_error_iff,
      parseQuery_eq_error_iff]

theorem run_eq_parse_error_iff {c : Check} (h : c.syntaxOnly = false) {input : String} {q : Query}
    (hinput : c.input = some input) (hq : queryOfJson input c.options = .ok q)
    {fault : ParseError} :
    c.run = .error (.query (.parse fault)) ↔
      Text.allBlank c.query.toList = false ∧ parse c.query = .error fault := by
  rw [run, h, hinput, ← @Query.answer_eq_parse_error_iff q]
  simp only [Bool.false_eq_true, if_false, hq, ok_bind]
  cases q.answer c.query with
  | ok s => simp
  | error e =>
    change Except.error (CommandError.query e) = _ ↔ _
    simp

/-- Over an array of objects, a check of the syntax fails exactly if a check that runs the query
fails with a syntax error, and with the same one. Refining a query never fails because its text is
empty. -/
theorem syntax_check_agrees :
    (∀ (c : Check) (input : String) (rows : List (List (String × Json))),
      c.input = some input → Json.read? input = some (.array (rows.map .object)) →
        ∀ e, ({ c with syntaxOnly := true } : Check).run = .error e ↔
          (∃ fault, e = .query (.parse fault)) ∧
            ({ c with syntaxOnly := false } : Check).run = .error e) ∧
      ∀ (q : Query) (expr : String) (fault : ParseError),
        q.refine expr = .error (.parse fault) → fault.cause ≠ .empty := by
  refine ⟨fun c input rows hinput hjson e ↦ ?_, fun q expr fault ↦ Query.refine_cause_ne_empty⟩
  have hrun (fault : ParseError) :=
    @run_eq_parse_error_iff { c with syntaxOnly := false } rfl _ _ hinput
      (queryOfJson_of_objects hjson c.options) fault
  rw [run_syntaxOnly_eq_error_iff rfl]
  constructor
  · rintro ⟨fault, rfl, hfault⟩
    exact ⟨⟨fault, rfl⟩, (hrun fault).2 hfault⟩
  · rintro ⟨⟨fault, rfl⟩, hfault⟩
    exact ⟨fault, rfl, (hrun fault).1 hfault⟩

/-- A call that is left open is found by both, at the name of the call. -/
theorem syntax_check_agrees_of_open_call :
    let c : Check := { query := "a=1& in(a,(1,2)", input := some "[\x7b\"a\":1\x7d]" }
    let fault : ParseError := ⟨.unclosed, 5, "in(a,(1,2)"⟩
    Json.read? "[\x7b\"a\":1\x7d]" = some (.array [.object [("a", .integer 1)]]) ∧
      ({ c with syntaxOnly := true } : Check).run = .error (.query (.parse fault)) ∧
      ({ c with syntaxOnly := false } : Check).run = .error (.query (.parse fault)) ∧
      ({ records := [] } : Query).refine c.query = .error (.parse fault) ∧
      fault.cause ≠ .empty := by
  intro c fault
  have hjson : Json.read? "[\x7b\"a\":1\x7d]" =
      some (.array ([[("a", Json.integer 1)]].map .object)) := by
    cbv
  have hsyntax : Text.allBlank c.query.toList = false ∧ parse c.query = .error fault := by
    refine ⟨by decide, ?_⟩
    cbv
  have hcheck : ({ c with syntaxOnly := true } : Check).run = .error (.query (.parse fault)) :=
    (run_syntaxOnly_eq_error_iff rfl).2 ⟨fault, rfl, hsyntax⟩
  have hrefine : ({ records := [] } : Query).refine c.query = .error (.parse fault) :=
    Query.refine_eq_parse_error_iff.2 hsyntax
  exact ⟨hjson, hcheck, ((syntax_check_agrees.1 c _ _ rfl hjson _).1 hcheck).2, hrefine,
    syntax_check_agrees.2 _ _ _ hrefine⟩

end Check

end CommandLine

end ResourceQuery
