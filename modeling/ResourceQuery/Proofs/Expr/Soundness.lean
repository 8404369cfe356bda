import ResourceQuery.Proofs.Except
import ResourceQuery.Proofs.Expr.Grammar
import ResourceQuery.Proofs.Expr.Readers

/-!
The readers find only what the grammar derives. Each reader takes some lexemes off the front whose
tokens derive its result. The readers of values, and those of clauses and arguments, call one
another on shorter lists; `Sound` collects what is proved of the latter at one list.
-/

set_option autoImplicit false

open ResourceQuery.Parser (Joint outcome)

namespace ResourceQuery.Grammar

/-- The lexemes `ls` start with tokens that derive the phrase, and `rest` is what follows them. -/
def Found (phrase : Phrase) (ls rest : List Lexeme) : Prop :=
  ∃ used, ls = used ++ rest ∧ Derives phrase (used.map Lexeme.token)

theorem resolve_eq_ok_iff {raw : String} {position : Nat} {v : Value} :
    Parser.resolve raw position = .ok v ↔ Literal.resolve raw = .ok v := by
  unfold Parser.resolve
  cases Literal.resolve raw <;> simp

theorem checkName_eq_ok_iff {name : String} {position : Nat} :
    Parser.checkName name position = .ok () ↔ IsName name := by
  rw [isName_iff]
  unfold Parser.checkName
  split <;> simp_all

theorem close_eq_ok_iff {stop start : Nat} {ls rest : List Lexeme} :
    outcome (Parser.close stop start ls) = .ok ((), rest) ↔
      ∃ position, ls = ⟨.rightParen, position⟩ :: rest := by
  rcases ls with _ | ⟨⟨token, position⟩, behind⟩
  · simp [Parser.outcome_close_nil]
  · cases token with
    | rightParen => simp [Parser.outcome_close_rightParen]
    | _ => simp [Parser.close, outcome, Except.map]

theorem found_array {stop start : Nat} {ls rest : List Lexeme} {v : Value}
    (hvalues : ∀ vs behind,
      outcome (Parser.values stop ls) = .ok (vs, behind) → Found (.values vs) ls behind)
    (h : outcome (Parser.value stop (⟨.leftParen, start⟩ :: ls)) = .ok (v, rest)) :
    Found (.array v) (⟨.leftParen, start⟩ :: ls) rest := by
  simp only [Parser.outcome_value_leftParen, bind_eq_ok_iff, Prod.exists, pure_eq_ok,
    Except.ok.injEq, Prod.mk.injEq] at h
  obtain ⟨items, behind, hitems, ⟨⟩, closed, hclose, rfl, rfl⟩ := h
  obtain ⟨used, rfl, hused⟩ := hvalues items behind hitems
  obtain ⟨q, rfl⟩ := close_eq_ok_iff.1 hclose
  refine ⟨⟨.leftParen, start⟩ :: (used ++ [⟨.rightParen, q⟩]), by simp, ?_⟩
  simpa using Derives.array hused

theorem found_value {stop : Nat} {ls rest : List Lexeme} {v : Value}
    (hvalues : ∀ ls', ls'.length < ls.length → ∀ vs behind,
      outcome (Parser.values stop ls') = .ok (vs, behind) → Found (.values vs) ls' behind)
    (h : outcome (Parser.value stop ls) = .ok (v, rest)) : Found (.value v) ls rest := by
  rcases ls with _ | ⟨⟨token, position⟩, tail⟩
  · simp [Parser.outcome_value_of_other] at h
  cases token with
  | leftParen =>
    obtain ⟨used, hsplit, hused⟩ := found_array (hvalues tail (Nat.lt_succ_self _)) h
    exact ⟨used, hsplit, .valueArray hused⟩
  | word raw =>
    simp only [Parser.outcome_value_word, bind_eq_ok_iff, pure_eq_ok, Except.ok.injEq,
      Prod.mk.injEq] at h
    obtain ⟨w, hw, rfl, rfl⟩ := h
    exact ⟨[⟨.word raw, position⟩], rfl, .valueWord (resolve_eq_ok_iff.1 hw)⟩
  | _ => simp [Parser.outcome_value_of_other] at h

theorem found_values {stop : Nat} {ls rest : List Lexeme} {vs : List Value}
    (hvalue : ∀ v behind,
      outcome (Parser.value stop ls) = .ok (v, behind) → Found (.value v) ls behind)
    (hvalues : ∀ ls', ls'.length < ls.length → ∀ vs behind,
      outcome (Parser.values stop ls') = .ok (vs, behind) → Found (.values vs) ls' behind)
    (h : outcome (Parser.values stop ls) = .ok (vs, rest)) : Found (.values vs) ls rest := by
  rw [Parser.outcome_values, bind_eq_ok_iff] at h
  obtain ⟨⟨first, behind⟩, hfirst, h⟩ := h
  obtain ⟨used, rfl, hderives⟩ := hvalue first behind hfirst
  simp only at h
  split at h
  · next position tail =>
    simp only [bind_eq_ok_iff, Prod.exists, pure_eq_ok, Except.ok.injEq, Prod.mk.injEq] at h
    obtain ⟨more, last, hmore, rfl, rfl⟩ := h
    obtain ⟨used', rfl, hderives'⟩ :=
      hvalues tail (by simp only [List.length_append, List.length_cons]; omega) more last hmore
    refine ⟨used ++ ⟨.comma, position⟩ :: used', by simp, ?_⟩
    simpa using Derives.valuesCons hderives hderives'
  · simp only [pure_eq_ok, Except.ok.injEq, Prod.mk.injEq] at h
    obtain ⟨rfl, rfl⟩ := h
    exact ⟨used, rfl, .valuesOne hderives⟩

theorem found_value_values (stop : Nat) (ls : List Lexeme) :
    (∀ v rest, outcome (Parser.value stop ls) = .ok (v, rest) → Found (.value v) ls rest) ∧
      ∀ vs rest, outcome (Parser.values stop ls) = .ok (vs, rest) → Found (.values vs) ls rest := by
  have hshorter (ls' : List Lexeme) (_hlt : ls'.length < ls.length) :=
    (found_value_values stop ls').2
  have hvalue (v : Value) (rest : List Lexeme)
      (h : outcome (Parser.value stop ls) = .ok (v, rest)) := found_value hshorter h
  exact ⟨hvalue, fun vs rest ↦ found_values hvalue hshorter⟩
termination_by ls.length

theorem found_comparison {stop : Nat} {ls rest : List Lexeme} {c : Call}
    (h : outcome (Parser.comparison stop ls) = .ok (c, rest)) : Found (.comparison c) ls rest := by
  rw [Parser.outcome_comparison, bind_eq_ok_iff] at h
  obtain ⟨⟨field, behind⟩, hfield, h⟩ := h
  obtain ⟨used, rfl, hused⟩ := (found_value_values stop ls).1 field behind hfield
  simp only at h
  split at h
  · next p name position q tail =>
    simp only [bind_eq_ok_iff, Prod.exists, pure_eq_ok, Except.ok.injEq, Prod.mk.injEq] at h
    obtain ⟨⟨⟩, hname, operand, last, hoperand, rfl, rfl⟩ := h
    obtain ⟨used', rfl, hused'⟩ := (found_value_values stop tail).1 operand last hoperand
    refine ⟨used ++ ⟨.equals, p⟩ :: ⟨.word name, position⟩ :: ⟨.equals, q⟩ :: used', by simp, ?_⟩
    simpa using Derives.comparison (checkName_eq_ok_iff.1 hname) hused hused'
  · next p tail _ =>
    simp only [bind_eq_ok_iff, Prod.exists, pure_eq_ok, Except.ok.injEq, Prod.mk.injEq] at h
    obtain ⟨operand, last, hoperand, rfl, rfl⟩ := h
    obtain ⟨used', rfl, hused'⟩ := (found_value_values stop tail).1 operand last hoperand
    refine ⟨used ++ ⟨.equals, p⟩ :: used', by simp, ?_⟩
    simpa using Derives.equality hused hused'
  · cases h

/-- What is proved of the readers of clauses and arguments together, for lists of one length. -/
structure Sound (stop : Nat) (ls : List Lexeme) : Prop where
  clause : ∀ c rest, outcome (Parser.clause stop ls) = .ok (c, rest) → Found (.clause c) ls rest
  moreClauses : ∀ joint mixed cs rest,
    outcome (Parser.moreClauses stop joint mixed ls) = .ok (cs, rest) →
    Found (.tail joint cs) ls rest
  arguments : ∀ name start position paren as rest, IsName name →
    outcome (Parser.arguments stop (name == "sort") start ls) = .ok (as, rest) →
    Found (.call ⟨name, as⟩) (⟨.word name, position⟩ :: ⟨.leftParen, paren⟩ :: ls) rest
  args : ∀ inSort as rest,
    outcome (Parser.args stop inSort ls) = .ok (as, rest) → Found (.args inSort as) ls rest

section Steps

variable {stop : Nat} {ls rest : List Lexeme}

theorem found_call {name : String} {position paren : Nat} {as : List Arg}
    (hargs : ∀ as behind, outcome (Parser.args stop (name == "sort") ls) = .ok (as, behind) →
      Found (.args (name == "sort") as) ls behind)
    (start : Nat) (hname : IsName name)
    (h : outcome (Parser.arguments stop (name == "sort") start ls) = .ok (as, rest)) :
    Found (.call ⟨name, as⟩) (⟨.word name, position⟩ :: ⟨.leftParen, paren⟩ :: ls) rest := by
  by_cases hclosed : ∃ p behind, ls = ⟨.rightParen, p⟩ :: behind
  · obtain ⟨p, behind, rfl⟩ := hclosed
    rw [Parser.outcome_arguments_rightParen] at h
    cases h
    exact ⟨[⟨.word name, position⟩, ⟨.leftParen, paren⟩, ⟨.rightParen, p⟩], rfl,
      .callEmpty hname⟩
  · simp only [not_exists] at hclosed
    simp only [Parser.outcome_arguments_of_ne _ _ _ _ hclosed, bind_eq_ok_iff, Prod.exists,
      pure_eq_ok, Except.ok.injEq, Prod.mk.injEq] at h
    obtain ⟨found, behind, hfound, ⟨⟩, last, hclose, rfl, rfl⟩ := h
    obtain ⟨used, rfl, hused⟩ := hargs found behind hfound
    obtain ⟨q, rfl⟩ := close_eq_ok_iff.1 hclose
    refine ⟨⟨.word name, position⟩ :: ⟨.leftParen, paren⟩ :: (used ++ [⟨.rightParen, q⟩]),
      by simp, ?_⟩
    simpa using Derives.call hname hused

theorem found_sortArg {word key : String} {direction : Direction} {position : Nat} {v : Value}
    (hword : SignedWord direction key word)
    (h : outcome (Parser.sortKey stop key position ls) = .ok (v, rest)) :
    Found (.sortArg direction v) (⟨.word word, position⟩ :: ls) rest := by
  by_cases hkey : key = ""
  · subst hkey
    rcases ls with _ | ⟨⟨token, p⟩, tail⟩
    · simp [Parser.sortKey, outcome, Except.map] at h
    cases token with
    | leftParen =>
      rw [Parser.outcome_sortKey_empty _ _ _ _ _ rfl] at h
      obtain ⟨used, hsplit, hused⟩ := found_array (found_value_values stop tail).2 h
      refine ⟨⟨.word word, position⟩ :: used, by simp [hsplit], ?_⟩
      rw [List.map_cons]
      exact .sortArray hword hused
    | _ => simp [Parser.sortKey, outcome, Except.map] at h
  · simp only [Parser.outcome_sortKey_of_ne _ _ _ _ hkey, bind_eq_ok_iff, pure_eq_ok,
      Except.ok.injEq, Prod.mk.injEq] at h
    obtain ⟨w, hw, rfl, rfl⟩ := h
    exact ⟨[⟨.word word, position⟩], rfl, .sortWord hword hkey (resolve_eq_ok_iff.1 hw)⟩

theorem splitDirection?_eq_none {inSort : Bool} {word : String}
    (h : (if inSort then Parser.splitDirection? word else none) = none) :
    inSort = true → ¬ IsSigned word := by
  rintro rfl hsigned
  exact isSigned_iff.1 hsigned h

theorem found_arg {inSort : Bool} {a : Arg}
    (hcall : ∀ ls', ls'.length < ls.length → ∀ name start position paren as behind, IsName name →
      outcome (Parser.arguments stop (name == "sort") start ls') = .ok (as, behind) →
      Found (.call ⟨name, as⟩) (⟨.word name, position⟩ :: ⟨.leftParen, paren⟩ :: ls') behind)
    (h : outcome (Parser.arg stop inSort ls) = .ok (a, rest)) : Found (.arg inSort a) ls rest := by
  have hplain {v : Value} (hv : outcome (Parser.value stop ls) = .ok (v, rest))
      (hunsigned : inSort = true → ∀ word, IsSigned word → ∀ p tail, ls ≠ ⟨.word word, p⟩ :: tail) :
      Found (.arg inSort (.value v)) ls rest := by
    obtain ⟨used, rfl, hused⟩ := (found_value_values stop ls).1 v rest hv
    refine ⟨used, rfl, .argValue (fun hsort word hword hmap ↦ ?_) hused⟩
    obtain ⟨⟨_, p⟩, rfl, rfl⟩ := List.map_eq_singleton_iff.1 hmap
    exact hunsigned hsort _ hword p rest rfl
  by_cases hword : ∃ word p tail, ls = ⟨.word word, p⟩ :: tail
  · obtain ⟨word, position, tail, rfl⟩ := hword
    rcases hsplit : (if inSort then Parser.splitDirection? word else none) with _ | ⟨direction, key⟩
    · by_cases hparen : ∃ p behind, tail = ⟨.leftParen, p⟩ :: behind
      · obtain ⟨p, behind, rfl⟩ := hparen
        simp only [Parser.outcome_arg_call _ _ _ _ _ hsplit, bind_eq_ok_iff, Prod.exists,
          pure_eq_ok, Except.ok.injEq, Prod.mk.injEq] at h
        obtain ⟨⟨⟩, hname, as, last, has, rfl, rfl⟩ := h
        obtain ⟨used, hused, hderives⟩ :=
          hcall behind (by simp only [List.length_cons]; omega) word position position p as last
            (checkName_eq_ok_iff.1 hname) has
        exact ⟨used, hused, .argCall hderives⟩
      · simp only [not_exists] at hparen
        simp only [Parser.outcome_arg_word _ _ _ _ hsplit hparen, bind_eq_ok_iff, Prod.exists,
          pure_eq_ok, Except.ok.injEq, Prod.mk.injEq] at h
        obtain ⟨v, last, hv, rfl, rfl⟩ := h
        refine hplain hv fun hsort other hother p behind heq ↦ ?_
        cases heq
        exact splitDirection?_eq_none hsplit hsort hother
    · simp only [Parser.outcome_arg_sortKey _ _ _ _ hsplit, bind_eq_ok_iff, Prod.exists, pure_eq_ok,
        Except.ok.injEq, Prod.mk.injEq] at h
      obtain ⟨v, last, hv, rfl, rfl⟩ := h
      cases inSort with
      | false => cases hsplit
      | true =>
        obtain ⟨used, hused, hderives⟩ := found_sortArg (splitDirection?_eq_some_iff.1 hsplit) hv
        exact ⟨used, hused, .argSort hderives⟩
  · simp only [not_exists] at hword
    simp only [Parser.outcome_arg_of_not_word _ _ _ hword, bind_eq_ok_iff, Prod.exists,
      pure_eq_ok, Except.ok.injEq, Prod.mk.injEq] at h
    obtain ⟨v, last, hv, rfl, rfl⟩ := h
    exact hplain hv fun _ other _ p behind ↦ hword other p behind

theorem found_args {inSort : Bool} {as : List Arg}
    (harg : ∀ a behind,
      outcome (Parser.arg stop inSort ls) = .ok (a, behind) → Found (.arg inSort a) ls behind)
    (hargs : ∀ ls', ls'.length < ls.length → ∀ as behind,
      outcome (Parser.args stop inSort ls') = .ok (as, behind) → Found (.args inSort as) ls' behind)
    (h : outcome (Parser.args stop inSort ls) = .ok (as, rest)) :
    Found (.args inSort as) ls rest := by
  rw [Parser.outcome_args, bind_eq_ok_iff] at h
  obtain ⟨⟨first, behind⟩, hfirst, h⟩ := h
  obtain ⟨used, rfl, hused⟩ := harg first behind hfirst
  simp only at h
  split at h
  · next position tail =>
    simp only [bind_eq_ok_iff, Prod.exists, pure_eq_ok, Except.ok.injEq, Prod.mk.injEq] at h
    obtain ⟨more, last, hmore, rfl, rfl⟩ := h
    obtain ⟨used', rfl, hused'⟩ :=
      hargs tail (by simp only [List.length_append, List.length_cons]; omega) more last hmore
    refine ⟨used ++ ⟨.comma, position⟩ :: used', by simp, ?_⟩
    simpa using Derives.argsCons hused hused'
  · simp only [pure_eq_ok, Except.ok.injEq, Prod.mk.injEq] at h
    obtain ⟨rfl, rfl⟩ := h
    exact ⟨used, rfl, .argsOne hused⟩

theorem found_clause {c : Call} (ih : ∀ ls', ls'.length < ls.length → Sound stop ls')
    (h : outcome (Parser.clause stop ls) = .ok (c, rest)) : Found (.clause c) ls rest := by
  have hcomparison (h : outcome (Parser.comparison stop ls) = .ok (c, rest)) :
      Found (.clause c) ls rest := by
    obtain ⟨used, hsplit, hused⟩ := found_comparison h
    exact ⟨used, hsplit, .clauseComparison hused⟩
  rcases ls with _ | ⟨⟨token, position⟩, tail⟩
  · simp [Parser.outcome_clause_of_other] at h
  cases token with
  | leftParen =>
    cases htuple : Parser.closesBeforeEquals 1 tail with
    | true => exact hcomparison (Parser.outcome_clause_tuple _ _ _ htuple ▸ h)
    | false =>
      simp only [Parser.outcome_clause_group _ _ _ htuple, bind_eq_ok_iff, Prod.exists, pure_eq_ok,
        Except.ok.injEq, Prod.mk.injEq] at h
      obtain ⟨first, behind, hfirst, more, last, hmore, ⟨⟩, closed, hclose, rfl, rfl⟩ := h
      obtain ⟨used, rfl, hused⟩ := (ih tail (Nat.lt_succ_self _)).clause first behind hfirst
      obtain ⟨used', rfl, hused'⟩ :=
        (ih behind (by simp only [List.length_cons, List.length_append]; omega)).moreClauses
          _ _ more last hmore
      obtain ⟨q, rfl⟩ := close_eq_ok_iff.1 hclose
      refine ⟨⟨.leftParen, position⟩ :: (used ++ used' ++ [⟨.rightParen, q⟩]), by simp, ?_⟩
      simpa using Derives.clauseGroup (.group hused hused' (joins_iff.2 rfl))
  | word word =>
    by_cases hparen : ∃ p behind, tail = ⟨.leftParen, p⟩ :: behind
    · obtain ⟨p, behind, rfl⟩ := hparen
      simp only [Parser.outcome_clause_call, bind_eq_ok_iff, Prod.exists, pure_eq_ok,
        Except.ok.injEq, Prod.mk.injEq] at h
      obtain ⟨⟨⟩, hname, as, last, has, rfl, rfl⟩ := h
      obtain ⟨used, hsplit, hused⟩ :=
        (ih behind (by simp only [List.length_cons]; omega)).arguments word position position p as
          last (checkName_eq_ok_iff.1 hname) has
      exact ⟨used, hsplit, .clauseCall hused⟩
    · by_cases hequals : ∃ p behind, tail = ⟨.equals, p⟩ :: behind
      · obtain ⟨p, behind, rfl⟩ := hequals
        exact hcomparison (Parser.outcome_clause_comparison _ _ _ _ _ ▸ h)
      · simp only [not_exists] at hparen hequals
        rw [Parser.outcome_clause_word _ _ _ _ hparen hequals] at h
        cases h
  | _ => simp [Parser.outcome_clause_of_other] at h

theorem found_moreClauses {joint : Joint} {mixed : ParseError.Cause} {cs : List Call}
    (ih : ∀ ls', ls'.length < ls.length → Sound stop ls')
    (h : outcome (Parser.moreClauses stop joint mixed ls) = .ok (cs, rest)) :
    Found (.tail joint cs) ls rest := by
  rcases ls with _ | ⟨lexeme, tail⟩
  · rw [Parser.outcome_moreClauses_nil] at h
    cases h
    exact ⟨[], rfl, .tailNil⟩
  rw [Parser.outcome_moreClauses_cons] at h
  split at h
  · cases h
    exact ⟨[], rfl, .tailNil⟩
  · next other hother =>
    split at h
    · next hjoint =>
      subst hjoint
      simp only [bind_eq_ok_iff, Prod.exists, pure_eq_ok, Except.ok.injEq, Prod.mk.injEq] at h
      obtain ⟨first, behind, hfirst, more, last, hmore, rfl, rfl⟩ := h
      obtain ⟨used, rfl, hused⟩ := (ih tail (Nat.lt_succ_self _)).clause first behind hfirst
      obtain ⟨used', rfl, hused'⟩ :=
        (ih behind (by simp only [List.length_cons, List.length_append]; omega)).moreClauses
          _ _ more last hmore
      refine ⟨lexeme :: (used ++ used'), by simp, ?_⟩
      simpa using Derives.tailCons (separates_iff.2 hother) hused hused'
    · cases h

end Steps

theorem sound (stop : Nat) (ls : List Lexeme) : Sound stop ls := by
  have ih (ls' : List Lexeme) (_hlt : ls'.length < ls.length) := sound stop ls'
  have hargs (inSort : Bool) (as : List Arg) (rest : List Lexeme)
      (h : outcome (Parser.args stop inSort ls) = .ok (as, rest)) :
      Found (.args inSort as) ls rest :=
    found_args
      (fun a behind ↦ found_arg fun ls' hlt name start position paren as behind ↦
        (ih ls' hlt).arguments name start position paren as behind)
      (fun ls' hlt ↦ (ih ls' hlt).args inSort) h
  exact {
    clause := fun c rest ↦ found_clause ih
    moreClauses := fun joint mixed cs rest ↦ found_moreClauses ih
    arguments := fun name start position paren as rest ↦
      found_call (hargs (name == "sort")) start
    args := hargs }
termination_by ls.length

theorem derives_of_query {stop : Nat} {ls : List Lexeme} {c : Call}
    (h : Parser.query stop ls = .ok c) : Derives (.query c) (ls.map Lexeme.token) := by
  rcases ls with _ | ⟨lexeme, tail⟩
  · simp [Parser.query_nil] at h
  simp only [Parser.query_of_ne_nil _ _ (List.cons_ne_nil lexeme tail), bind_eq_ok_iff,
    Prod.exists] at h
  obtain ⟨first, behind, hfirst, more, last, hmore, h⟩ := h
  obtain ⟨used, hsplit, hused⟩ := (sound stop _).clause first behind hfirst
  obtain ⟨used', rfl, hused'⟩ := (sound stop behind).moreClauses _ _ more last hmore
  split at h
  · cases h
    have hjoins : Joins .conjunction (first :: more) (Call.conjunction (first :: more)) :=
      joins_iff.2 rfl
    rw [hsplit]
    simpa using Derives.query hused hused' hjoins
  · cases h
  · cases h

end ResourceQuery.Grammar
