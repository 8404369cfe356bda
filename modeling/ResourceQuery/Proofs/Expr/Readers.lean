import ResourceQuery.Expr.Parser

/-!
The readers of the grammar without their bounds. A reader of the parser returns what is left to read
together with the fact that this is shorter, which it needs to end. Here that fact is dropped, and
each reader is given by one equation over the lexemes that it starts with. Everything else about the
parser is proved from these equations.
-/

set_option autoImplicit false

namespace ResourceQuery.Parser

open Text (Parsed)

/-- What a reader found and what it left, or its fault. -/
def outcome {α : Type} {bound : Nat} (r : Result α bound) : Except Fault (α × List Lexeme) :=
  Except.map Parsed.toPair r

section Values

variable (stop start position : Nat) (raw : String) (ls rest : List Lexeme)

theorem outcome_close_nil : outcome (close stop start []) = .error ⟨.unclosed, start⟩ :=
  rfl

theorem outcome_close_rightParen :
    outcome (close stop start (⟨.rightParen, position⟩ :: rest)) = .ok ((), rest) :=
  rfl

theorem outcome_value_leftParen :
    outcome (value stop (⟨.leftParen, start⟩ :: rest)) = (do
      let (items, behind) ← outcome (values stop rest)
      let (_, behind) ← outcome (close stop start behind)
      return (.array items, behind)) := by
  rw [value]
  rcases values stop rest with fault | items
  · rfl
  · simp only [outcome, bind, Except.bind, Except.map, Parsed.toPair]
    rcases close stop start items.rest with fault | closed <;> rfl

theorem outcome_value_word :
    outcome (value stop (⟨.word raw, position⟩ :: rest)) = (do
      return (← resolve raw position, rest)) := by
  rw [value]
  rcases resolve raw position with fault | v <;> rfl

theorem outcome_value_of_other {ls : List Lexeme}
    (hparen : ∀ p behind, ls ≠ ⟨.leftParen, p⟩ :: behind)
    (hword : ∀ raw p behind, ls ≠ ⟨.word raw, p⟩ :: behind) :
    outcome (value stop ls) = .error (unexpected stop .value ls) := by
  rw [value]
  · rfl
  · exact hparen
  · exact hword

theorem outcome_values :
    outcome (values stop ls) = (do
      let (first, behind) ← outcome (value stop ls)
      match behind with
      | ⟨.comma, _⟩ :: rest =>
        let (more, behind) ← outcome (values stop rest)
        return (first :: more, behind)
      | behind => return ([first], behind)) := by
  rw [values]
  rcases value stop ls with fault | ⟨first, behind, hshorter⟩
  · rfl
  rcases behind with _ | ⟨⟨token, position⟩, rest⟩
  · rfl
  cases token with
  | comma =>
    simp only [outcome, bind, Except.bind, Except.map, Parsed.toPair]
    rcases values stop rest with fault | more <;> rfl
  | _ => rfl

/-- Only a word between two equals signs is the name of an operator. -/
theorem outcome_comparison :
    outcome (comparison stop ls) = (do
      let (field, behind) ← outcome (value stop ls)
      match behind with
      | ⟨.equals, _⟩ :: ⟨.word name, position⟩ :: ⟨.equals, _⟩ :: rest =>
        checkName name position
        let (operand, behind) ← outcome (value stop rest)
        return (⟨name, [.value field, .value operand]⟩, behind)
      | ⟨.equals, _⟩ :: rest =>
        let (operand, behind) ← outcome (value stop rest)
        return (⟨"eq", [.value field, .value operand]⟩, behind)
      | behind => .error (unexpected stop .equals behind)) := by
  rw [comparison]
  rcases value stop ls with fault | ⟨field, behind, hshorter⟩
  · rfl
  rcases behind with _ | ⟨⟨token, position⟩, rest⟩
  · rfl
  cases token with
  | equals =>
    rcases rest with _ | ⟨⟨token, position⟩, rest⟩
    · simp only [outcome, bind, Except.bind, Except.map, Parsed.toPair]
      rcases value stop [] with fault | operand <;> rfl
    cases token with
    | word name =>
      rcases rest with _ | ⟨⟨token, other⟩, rest⟩
      · simp only [outcome, bind, Except.bind, Except.map, Parsed.toPair]
        rcases value stop _ with fault | operand <;> rfl
      cases token with
      | equals =>
        simp only [outcome, bind, Except.bind, Except.map, Parsed.toPair]
        rcases checkName name position with fault | ⟨⟩
        · rfl
        · rcases value stop rest with fault | operand <;> rfl
      | _ =>
        simp only [outcome, bind, Except.bind, Except.map, Parsed.toPair]
        rcases value stop _ with fault | operand <;> rfl
    | _ =>
      simp only [outcome, bind, Except.bind, Except.map, Parsed.toPair]
      rcases value stop _ with fault | operand <;> rfl
  | _ => rfl

theorem outcome_sortKey_empty (key : String) (h : key = "") :
    outcome (sortKey stop key position (⟨.leftParen, start⟩ :: rest)) =
      outcome (value stop (⟨.leftParen, start⟩ :: rest)) := by
  simp only [sortKey, h, if_true]
  rcases value stop (⟨.leftParen, start⟩ :: rest) with fault | key <;> rfl

theorem outcome_sortKey_of_ne (key : String) (h : key ≠ "") :
    outcome (sortKey stop key position ls) = (do return (← resolve key (position + 1), ls)) := by
  simp only [sortKey, h, if_false]
  rcases resolve key (position + 1) with fault | v <;> rfl

end Values

section Clauses

variable (stop start position : Nat) (ls rest : List Lexeme)

theorem outcome_clause_tuple (h : closesBeforeEquals 1 rest = true) :
    outcome (clause stop (⟨.leftParen, start⟩ :: rest)) =
      outcome (comparison stop (⟨.leftParen, start⟩ :: rest)) := by
  rw [clause, if_pos h]

theorem outcome_clause_group (h : closesBeforeEquals 1 rest = false) :
    outcome (clause stop (⟨.leftParen, start⟩ :: rest)) = (do
      let (first, behind) ← outcome (clause stop rest)
      let joint := jointOf behind
      let (more, behind) ← outcome (moreClauses stop joint .mixedGroup behind)
      let (_, behind) ← outcome (close stop start behind)
      return (joint.join (first :: more), behind)) := by
  rw [clause, if_neg (by simp [h])]
  rcases clause stop rest with fault | first
  · rfl
  simp only [outcome, bind, Except.bind, Except.map, Parsed.toPair]
  rcases moreClauses stop (jointOf first.rest) .mixedGroup first.rest with fault | more
  · rfl
  simp only
  rcases close stop start more.rest with fault | closed <;> rfl

theorem outcome_clause_call (name : String) (p : Nat) :
    outcome (clause stop (⟨.word name, position⟩ :: ⟨.leftParen, p⟩ :: rest)) = (do
      checkName name position
      let (args, behind) ← outcome (arguments stop (name == "sort") position rest)
      return (⟨name, args⟩, behind)) := by
  rw [clause]
  rcases checkName name position with fault | ⟨⟩
  · rfl
  simp only [outcome, bind, Except.bind, Except.map, Parsed.toPair]
  rcases arguments stop (name == "sort") position rest with fault | args <;> rfl

theorem outcome_clause_comparison (word : String) (p : Nat) :
    outcome (clause stop (⟨.word word, position⟩ :: ⟨.equals, p⟩ :: rest)) =
      outcome (comparison stop (⟨.word word, position⟩ :: ⟨.equals, p⟩ :: rest)) := by
  rw [clause]

theorem outcome_clause_word (word : String) (hparen : ∀ p behind, rest ≠ ⟨.leftParen, p⟩ :: behind)
    (hequals : ∀ p behind, rest ≠ ⟨.equals, p⟩ :: behind) :
    outcome (clause stop (⟨.word word, position⟩ :: rest)) =
      .error (unexpected stop .callOrComparison rest) := by
  rw [clause]
  · rfl
  · exact fun p behind h ↦ hparen p behind h
  · exact fun p behind h ↦ hequals p behind h

theorem outcome_clause_of_other (hparen : ∀ p behind, ls ≠ ⟨.leftParen, p⟩ :: behind)
    (hword : ∀ raw p behind, ls ≠ ⟨.word raw, p⟩ :: behind) :
    outcome (clause stop ls) = .error (unexpected stop .clause ls) := by
  rw [clause]
  · rfl
  · exact hparen
  · exact fun raw p _ behind h ↦ hword raw p _ h
  · exact fun raw p _ behind h ↦ hword raw p _ h
  · exact hword

theorem outcome_moreClauses_nil (joint : Joint) (mixed : ParseError.Cause) :
    outcome (moreClauses stop joint mixed []) = .ok ([], []) := by
  rw [moreClauses]
  rfl

theorem outcome_moreClauses_cons (joint : Joint) (mixed : ParseError.Cause) (lexeme : Lexeme) :
    outcome (moreClauses stop joint mixed (lexeme :: rest)) =
      match Joint.ofToken? lexeme.token with
      | none => .ok ([], lexeme :: rest)
      | some other =>
        if other = joint then (do
          let (first, behind) ← outcome (clause stop rest)
          let (more, behind) ← outcome (moreClauses stop joint mixed behind)
          return (first :: more, behind))
        else .error ⟨mixed, lexeme.position⟩ := by
  rw [moreClauses]
  cases Joint.ofToken? lexeme.token with
  | none => rfl
  | some other =>
    by_cases h : other = joint
    · simp only [h, if_true]
      rcases clause stop rest with fault | first
      · rfl
      simp only [outcome, bind, Except.bind, Except.map, Parsed.toPair]
      rcases moreClauses stop joint mixed first.rest with fault | more <;> rfl
    · simp only [h, if_false]
      rfl

theorem outcome_arguments_rightParen (inSort : Bool) (p : Nat) :
    outcome (arguments stop inSort start (⟨.rightParen, p⟩ :: rest)) = .ok ([], rest) := by
  rw [arguments]
  rfl

theorem outcome_arguments_of_ne (inSort : Bool) (h : ∀ p behind, ls ≠ ⟨.rightParen, p⟩ :: behind) :
    outcome (arguments stop inSort start ls) = (do
      let (found, behind) ← outcome (args stop inSort ls)
      let (_, behind) ← outcome (close stop start behind)
      return (found, behind)) := by
  rw [arguments]
  · rcases args stop inSort ls with fault | found
    · rfl
    simp only [outcome, bind, Except.bind, Except.map, Parsed.toPair]
    rcases close stop start found.rest with fault | closed <;> rfl
  · exact h

theorem outcome_args (inSort : Bool) :
    outcome (args stop inSort ls) = (do
      let (first, behind) ← outcome (arg stop inSort ls)
      match behind with
      | ⟨.comma, _⟩ :: rest =>
        let (more, behind) ← outcome (args stop inSort rest)
        return (first :: more, behind)
      | behind => return ([first], behind)) := by
  rw [args]
  rcases arg stop inSort ls with fault | ⟨first, behind, hshorter⟩
  · rfl
  rcases behind with _ | ⟨⟨token, position⟩, rest⟩
  · rfl
  cases token with
  | comma =>
    simp only [outcome, bind, Except.bind, Except.map, Parsed.toPair]
    rcases args stop inSort rest with fault | more <;> rfl
  | _ => rfl

theorem outcome_arg_sortKey (inSort : Bool) {word key : String} {direction : Direction}
    (h : (if inSort then splitDirection? word else none) = some (direction, key)) :
    outcome (arg stop inSort (⟨.word word, position⟩ :: rest)) = (do
      let (key, behind) ← outcome (sortKey stop key position rest)
      return (.sortKey direction key, behind)) := by
  rw [arg.eq_def]
  simp only [h]
  rcases sortKey stop key position rest with fault | found <;> rfl

theorem outcome_arg_call (inSort : Bool) {word : String} (p : Nat)
    (h : (if inSort then splitDirection? word else none) = none) :
    outcome (arg stop inSort (⟨.word word, position⟩ :: ⟨.leftParen, p⟩ :: rest)) = (do
      checkName word position
      let (args, behind) ← outcome (arguments stop (word == "sort") position rest)
      return (.call word args, behind)) := by
  rw [arg]
  simp only [h]
  rcases checkName word position with fault | ⟨⟩
  · rfl
  simp only [outcome, bind, Except.bind, Except.map, Parsed.toPair]
  rcases arguments stop (word == "sort") position rest with fault | found <;> rfl

theorem outcome_arg_word (inSort : Bool) {word : String}
    (h : (if inSort then splitDirection? word else none) = none)
    (hparen : ∀ p behind, rest ≠ ⟨.leftParen, p⟩ :: behind) :
    outcome (arg stop inSort (⟨.word word, position⟩ :: rest)) = (do
      let (v, behind) ← outcome (value stop (⟨.word word, position⟩ :: rest))
      return (.value v, behind)) := by
  rw [arg]
  · simp only [h]
    rcases value stop (⟨.word word, position⟩ :: rest) with fault | found <;> rfl
  · exact fun p behind hrest ↦ hparen p behind hrest

theorem outcome_arg_of_not_word (inSort : Bool)
    (hword : ∀ raw p behind, ls ≠ ⟨.word raw, p⟩ :: behind) :
    outcome (arg stop inSort ls) = (do
      let (v, behind) ← outcome (value stop ls)
      return (.value v, behind)) := by
  rw [arg]
  · rcases value stop ls with fault | found <;> rfl
  · exact hword

theorem query_nil : query stop [] = .error ⟨.empty, stop⟩ :=
  rfl

theorem query_of_ne_nil (h : ls ≠ []) :
    query stop ls = (do
      let (first, behind) ← outcome (clause stop ls)
      let (more, behind) ← outcome (moreClauses stop .conjunction .bareOr behind)
      match behind with
      | [] => return Call.conjunction (first :: more)
      | ⟨.rightParen, position⟩ :: _ => throw ⟨.strayClose, position⟩
      | rest => throw (unexpected stop .endOfQuery rest)) := by
  rcases ls with _ | ⟨lexeme, tail⟩
  · exact absurd rfl h
  rw [query]
  rcases clause stop (lexeme :: tail) with fault | first
  · rfl
  simp only [outcome, bind, Except.bind, Except.map, Parsed.toPair]
  rcases moreClauses stop .conjunction .bareOr first.rest with fault | more
  · rfl
  rcases more with ⟨cs, behind, hshorter⟩
  rcases behind with _ | ⟨⟨token, position⟩, behind⟩
  · rfl
  cases token <;> rfl

end Clauses

end ResourceQuery.Parser
