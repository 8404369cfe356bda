import Mathlib
import ResourceQuery.Proofs.Pipeline.Conjunction
import ResourceQuery.Proofs.Query.Refinement
import ResourceQuery.Proofs.Query.Result

/-!
The expression of a query, which joins the texts that the query was refined by. It has the clauses
of these texts one after the other, but one of them may be read in another way: a text that is a
single conjunction stands for its clauses where it is alone, and is one condition among others where
it is joined to further texts. Up to this the expression makes the query anew.
-/

set_option autoImplicit false

namespace ResourceQuery

open Grammar (Clauses)
open Lexeme (tokens)

namespace Stage

/-- Pipelines that give the same state or fail together, and of which both or neither hold a
limit. -/
structure Alike (first second : List Stage) : Prop where
  run : ∀ s, (runAll first s).toOption = (runAll second s).toOption
  isLimit : first.any isLimit = second.any isLimit

theorem Alike.refl (stages : List Stage) : Alike stages stages :=
  ⟨fun _ ↦ rfl, rfl⟩

theorem Alike.append {first second first' second' : List Stage} (h : Alike first second)
    (h' : Alike first' second') : Alike (first ++ first') (second ++ second') := by
  refine ⟨fun s ↦ ?_, ?_⟩
  · rw [runAll_append, runAll_append, toOption_bind, toOption_bind, h.run]
    simp only [h'.run]
  · rw [List.any_append, List.any_append, h.isLimit, h'.isLimit]

theorem alike_filters {ps : List Predicate} (h : ps ≠ []) :
    Alike [filter (.and ps)] (ps.map filter) := by
  obtain ⟨p, ps, rfl⟩ := List.exists_cons_of_ne_nil h
  refine ⟨fun s ↦ ?_, ?_⟩
  · rw [toOption_runAll_filters, runAll_cons, toOption_bind]
    exact Option.bind_fun_some _
  · simp [isLimit, Function.comp_def]

end Stage

namespace Query

open Stage (Alike)

section Alone

/-- A text that is a single clause, which joins these clauses: a group of them or a call of
`and`. -/
def LoneConjunction (expr : String) (clauses : List Call) : Prop :=
  clauses ≠ [] ∧ Grammar.Derives (.clause ⟨"and", clauses.map Call.toArg⟩) (tokens expr)

/-- If the text is a lone conjunction, then of conditions. -/
def JoinsConditions (expr : String) : Prop :=
  ∀ clauses, LoneConjunction expr clauses → ∀ c ∈ clauses, ∃ p, c.compilePredicate = .ok p

/-- If the text is a lone conjunction, then of clauses that are not ignored. -/
def JoinsKept (options : QueryOptions) (expr : String) : Prop :=
  ∀ clauses, LoneConjunction expr clauses → ∀ c ∈ clauses, options.ignores c = false

variable {expr : String} {cs clauses : List Call} {options : QueryOptions}

theorem loneConjunction_iff (h : Clauses cs (tokens expr)) :
    LoneConjunction expr clauses ↔
      clauses ≠ [] ∧ cs = [⟨"and", clauses.map Call.toArg⟩] := by
  refine and_congr_right fun _ ↦ ⟨h.eq_singleton, ?_⟩
  rintro rfl
  exact Grammar.clauses_singleton_iff.1 h

/-- A text is a lone conjunction in one way at most. -/
theorem LoneConjunction.eq_topClauses {tree : Call} (hlone : LoneConjunction expr clauses)
    (hparse : parse expr = .ok tree) : tree.name = "and" ∧ clauses = topClauses tree := by
  obtain ⟨cs, hcs, rfl⟩ := Grammar.parse_eq_ok_iff_clauses.1 hparse
  obtain ⟨hne, rfl⟩ := (loneConjunction_iff hcs).1 hlone
  exact ⟨rfl, (topClauses_conjunction hne).symm⟩

/-- The clauses of a text that is not a lone conjunction are left as they stand. -/
theorem topClauses_of_clauses (h : Clauses cs (tokens expr))
    (hlone : ∀ clauses, ¬ LoneConjunction expr clauses) :
    topClauses (Call.conjunction cs) = cs := by
  match cs, h with
  | [c], h =>
    obtain hself | ⟨clauses, hne, rfl⟩ := topClauses_eq_or c
    · exact hself
    · exact absurd ((loneConjunction_iff h).2 ⟨hne, rfl⟩) (hlone clauses)
  | c :: d :: cs, _ => exact topClauses_conjunction (List.cons_ne_nil c (d :: cs))

/-- Only equalities are ignored. -/
theorem filter_conjunction (options : QueryOptions) (args : List Arg) :
    [(⟨"and", args⟩ : Call)].filter (!options.ignores ·) = [⟨"and", args⟩] :=
  rfl

variable {maxLimit : Option Nat} {stages : List Stage}

/-- What a text that compiles alone needs to compile beside others. -/
theorem joinsConditions_iff (h : Clauses cs (tokens expr))
    (hstages : CompilesTo maxLimit (keptClauses options (Call.conjunction cs)) stages) :
    JoinsConditions expr ↔
      ∃ whole, CompilesTo maxLimit (cs.filter (!options.ignores ·)) whole := by
  by_cases hlone : ∃ clauses, LoneConjunction expr clauses
  · obtain ⟨clauses, hclauses⟩ := hlone
    have hparse := Grammar.parse_eq_ok_iff_clauses.2 ⟨cs, h, rfl⟩
    have hjoins : JoinsConditions expr ↔ ∀ c ∈ clauses, ∃ p, c.compilePredicate = .ok p := by
      refine ⟨fun hjoins ↦ hjoins clauses hclauses, fun hall others hothers ↦ ?_⟩
      rwa [(hothers.eq_topClauses hparse).2, ← (hclauses.eq_topClauses hparse).2]
    obtain ⟨hne, rfl⟩ := (loneConjunction_iff h).1 hclauses
    rw [hjoins, ← exists_forall₂_iff, filter_conjunction]
    simp only [compilesTo_conjunction_iff hne]
    constructor
    · rintro ⟨ps, hps⟩
      exact ⟨_, ps, hps, rfl⟩
    · rintro ⟨_, ps, hps, _⟩
      exact ⟨ps, hps⟩
  · rw [not_exists] at hlone
    rw [keptClauses, topClauses_of_clauses h hlone] at hstages
    exact iff_of_true (fun clauses hclauses ↦ absurd hclauses (hlone clauses)) ⟨stages, hstages⟩

/-- A text that compiles beside others does there what it does alone. -/
theorem alike_of_joinsKept (h : Clauses cs (tokens expr))
    (hstages : CompilesTo maxLimit (keptClauses options (Call.conjunction cs)) stages)
    {whole : List Stage} (hwhole : CompilesTo maxLimit (cs.filter (!options.ignores ·)) whole)
    (hkept : JoinsKept options expr) : Alike whole stages := by
  by_cases hlone : ∃ clauses, LoneConjunction expr clauses
  · obtain ⟨clauses, hclauses⟩ := hlone
    have hall : clauses.filter (!options.ignores ·) = clauses := by
      rw [List.filter_eq_self]
      intro c hc
      rw [hkept clauses hclauses c hc, Bool.not_false]
    obtain ⟨hne, rfl⟩ := (loneConjunction_iff h).1 hclauses
    rw [filter_conjunction, compilesTo_conjunction_iff hne] at hwhole
    obtain ⟨ps, hps, rfl⟩ := hwhole
    rw [keptClauses, Call.conjunction, Call.join, topClauses_conjunction hne, hall] at hstages
    rw [hstages.unique (compilesTo_filters hps)]
    refine Stage.alike_filters ?_
    rintro rfl
    exact hne (List.forall₂_nil_right_iff.1 hps)
  · rw [not_exists] at hlone
    rw [keptClauses, topClauses_of_clauses h hlone] at hstages
    rw [hwhole.unique hstages]
    exact Alike.refl stages

end Alone

section Chain

variable {start q refined : Query} {expr : String} {texts : List String} {cs : List Call}

/-- A query that was refined by the texts, of which none is blank. Its expression has the clauses
`cs`, which compile as they stand there if each of the texts can stand beside others, and which then
do what the query does if none of the texts had clauses ignored that it joins by itself. -/
structure Spells (start q : Query) (texts : List String) (cs : List Call) : Prop where
  records : q.records = start.records
  options : q.options = start.options
  hasLimit : q.hasLimit = q.pipeline.any Stage.isLimit
  clauses : Clauses cs (tokens q.expr)
  compiles : (∀ expr ∈ texts, JoinsConditions expr) ↔
    ∃ whole, CompilesTo start.options.maxLimit (cs.filter (!start.options.ignores ·)) whole
  alike : ∀ whole, CompilesTo start.options.maxLimit (cs.filter (!start.options.ignores ·)) whole →
    (∀ expr ∈ texts, JoinsKept start.options expr) → Alike whole q.pipeline

theorem tokens_joinExprs {first second : String} (h : first ≠ "") :
    tokens (joinExprs first second) = tokens first ++ .ampersand :: tokens second := by
  rw [joinExprs, if_neg h]
  exact Lexeme.tokens_append_delimiter rfl first second

theorem ne_empty_of_clauses (h : Clauses cs (tokens expr)) : expr ≠ "" := by
  rintro rfl
  have hparse := Grammar.parse_eq_ok_iff_clauses.2 ⟨cs, h, rfl⟩
  cases Grammar.not_blank_of_parse hparse

theorem spells_singleton {records : List Record} {options : QueryOptions}
    (hblank : Text.allBlank expr.toList = false)
    (h : refine { records, options } expr = .ok q) :
    ∃ cs, cs ≠ [] ∧ q.expr = expr ∧ Spells { records, options } q [expr] cs := by
  obtain ⟨cs, stages, hcs, hstages, rfl⟩ := exists_clauses_of_refine hblank h
  refine ⟨cs, hcs.ne_nil, rfl, rfl, rfl, rfl, hcs, ?_, fun whole hwhole hkept ↦ ?_⟩
  · rw [List.forall_mem_singleton]
    exact joinsConditions_iff hcs hstages
  · exact alike_of_joinsKept hcs hstages hwhole (hkept expr (List.mem_singleton_self expr))

/-- One text more puts its clauses behind those that the expression has. -/
theorem Spells.next (h : Spells start q texts cs) (hblank : Text.allBlank expr.toList = false)
    (hrefine : q.refine expr = .ok refined) :
    ∃ ds, ds ≠ [] ∧ Spells start refined (texts ++ [expr]) (cs ++ ds) := by
  obtain ⟨ds, stages, hds, hstages, rfl⟩ := exists_clauses_of_refine hblank hrefine
  rw [h.options] at hstages
  refine ⟨ds, hds.ne_nil, h.records, h.options, ?_, ?_, ?_, fun whole hwhole hkept ↦ ?_⟩
  · simp only [extend, List.any_append, h.hasLimit]
  · rw [extend, tokens_joinExprs (ne_empty_of_clauses h.clauses)]
    exact h.clauses.append hds
  · rw [List.forall_mem_append, List.forall_mem_singleton, h.compiles,
      joinsConditions_iff hds hstages, List.filter_append, exists_compilesTo_append_iff]
  · rw [List.filter_append, compilesTo_append_iff] at hwhole
    obtain ⟨before, behind, hbefore, hbehind, rfl⟩ := hwhole
    rw [List.forall_mem_append, List.forall_mem_singleton] at hkept
    rw [h.options]
    exact (h.alike before hbefore hkept.1).append (alike_of_joinsKept hds hstages hbehind hkept.2)

theorem Spells.nextAll {more : List String}
    (hblank : ∀ expr ∈ more, Text.allBlank expr.toList = false) (h : Spells start q texts cs)
    (hrefine : more.foldlM Query.refine q = .ok refined) :
    ∃ ds, more.length ≤ ds.length ∧ Spells start refined (texts ++ more) (cs ++ ds) := by
  induction more generalizing q texts cs with
  | nil =>
    cases hrefine
    exact ⟨[], le_rfl, by simpa using h⟩
  | cons expr more ih =>
    rw [List.forall_mem_cons] at hblank
    rw [List.foldlM_cons, bind_eq_ok_iff] at hrefine
    obtain ⟨next, hnext, hrest⟩ := hrefine
    obtain ⟨ds, hds, hspells⟩ := h.next hblank.1 hnext
    obtain ⟨es, hes, hspells⟩ := ih hblank.2 hspells hrest
    refine ⟨ds ++ es, ?_, by simpa using hspells⟩
    have hpos := List.length_pos_iff.2 hds
    simp only [List.length_cons, List.length_append]
    omega

/-- Blank texts make no difference. -/
theorem foldlM_refine_filter (exprs : List String) (q : Query) :
    (exprs.filter fun expr ↦ !Text.allBlank expr.toList).foldlM refine q =
      exprs.foldlM refine q := by
  rw [List.foldlM_filter]
  congr 1
  funext q expr
  cases hblank : Text.allBlank expr.toList with
  | true => exact (refine_of_blank q hblank).symm
  | false => rfl

theorem foldlM_refine_pair {first second : String} {last : Query}
    (h : q.refine first = .ok refined) (h' : refined.refine second = .ok last) :
    [first, second].foldlM refine q = .ok last := by
  rw [List.foldlM_cons, h, ok_bind, List.foldlM_cons, h', ok_bind, List.foldlM_nil, pure_eq_ok]

end Chain

section Agreement

variable {q other : Query} {s : State}

/-- Queries over the same records and with the same options agree if their pipelines do. -/
theorem result_eq_ok_iff_of_alike (hrecords : q.records = other.records)
    (hoptions : q.options = other.options) (h : Alike q.pipeline other.pipeline)
    (hlimit : q.hasLimit = q.pipeline.any Stage.isLimit)
    (hlimit' : other.hasLimit = other.pipeline.any Stage.isLimit) :
    q.result = .ok s ↔ other.result = .ok s := by
  have hcuts : ∀ count reached, q.Cuts count reached ↔ other.Cuts count reached := by
    intro count reached
    rw [Cuts, Cuts, hoptions, ← any_isLimit_eq_false_iff, ← any_isLimit_eq_false_iff, h.isLimit]
  simp only [result_eq_ok_iff hlimit, result_eq_ok_iff hlimit', hrecords, Delivers, hcuts,
    ← toOption_eq_some_iff, h.run]

variable {records : List Record} {options : QueryOptions} {texts : List String} {cs : List Call}

/-- The expression left by one text is that text. -/
theorem refine_expr_of_length_le_one (hblank : ∀ expr ∈ texts, Text.allBlank expr.toList = false)
    (h : texts.foldlM refine { records, options } = .ok q) (hlength : texts.length ≤ 1) :
    refine { records, options } q.expr = .ok q := by
  match texts with
  | [] =>
    obtain rfl := Except.ok.inj h
    rfl
  | [expr] =>
    rw [List.foldlM_cons] at h
    obtain ⟨next, hnext, hlast⟩ := bind_eq_ok_iff.1 h
    obtain rfl := Except.ok.inj hlast
    obtain ⟨_, _, hexpr, _⟩ := spells_singleton (hblank expr (List.mem_singleton_self expr)) hnext
    rw [hexpr, hnext]

theorem exists_spells (hblank : ∀ expr ∈ texts, Text.allBlank expr.toList = false)
    (h : texts.foldlM refine { records, options } = .ok q) (hlength : 1 < texts.length) :
    ∃ cs, 1 < cs.length ∧ Spells { records, options } q texts cs := by
  match texts with
  | expr :: next :: more =>
    rw [List.forall_mem_cons] at hblank
    obtain ⟨first, hfirst, hrest⟩ := bind_eq_ok_iff.1 h
    obtain ⟨cs, hne, _, hspells⟩ := spells_singleton hblank.1 hfirst
    obtain ⟨ds, hds, hspells⟩ := hspells.nextAll hblank.2 hrest
    refine ⟨cs ++ ds, ?_, hspells⟩
    have hpos := List.length_pos_iff.2 hne
    simp only [List.length_cons, List.length_append] at hds ⊢
    omega

/-- An expression of several clauses is read clause by clause. -/
theorem Spells.refine_eq_ok_iff (h : Spells { records, options } q texts cs)
    (hlength : 1 < cs.length) {whole : Query} :
    refine { records, options } q.expr = .ok whole ↔ ∃ stages,
      CompilesTo options.maxLimit (cs.filter (!options.ignores ·)) stages ∧
        whole = extend { records, options } q.expr (cs.filter (!options.ignores ·)) stages := by
  have hparse := Grammar.parse_eq_ok_iff_clauses.2 ⟨cs, h.clauses, rfl⟩
  have htop : topClauses (Call.conjunction cs) = cs := by
    match cs with
    | c :: d :: cs => exact topClauses_conjunction (List.cons_ne_nil c (d :: cs))
  rw [Query.refine_eq_ok_iff, Grammar.not_blank_of_parse hparse, hparse]
  simp [keptClauses, htop]

/-- The expression that a chain of refinements leaves makes the query anew: it is that of a single
text, or the texts stand side by side in it. There a text that is a single conjunction counts as one
condition, so that the expression is accepted exactly if such a text joins conditions only, and
agrees with the query unless clauses of such a text were ignored. -/
theorem refine_expr (records : List Record) (options : QueryOptions) (exprs : List String)
    (q : Query) (h : exprs.foldlM refine { records, options } = .ok q) :
    let start : Query := { records, options }
    let spoken := exprs.filter fun expr ↦ !Text.allBlank expr.toList
    ((∃ whole, start.refine q.expr = .ok whole) ↔
      spoken.length ≤ 1 ∨ ∀ expr ∈ spoken, JoinsConditions expr) ∧
    ∀ whole, start.refine q.expr = .ok whole →
      (spoken.length ≤ 1 ∨ ∀ expr ∈ spoken, JoinsKept options expr) →
      ∀ s, whole.result = .ok s ↔ q.result = .ok s := by
  intro start spoken
  have hblank : ∀ expr ∈ spoken, Text.allBlank expr.toList = false := by
    intro expr hexpr
    simpa using (List.mem_filter.1 hexpr).2
  rw [← foldlM_refine_filter] at h
  rcases Nat.lt_or_ge 1 spoken.length with hlength | hlength
  · have hmany : ¬ spoken.length ≤ 1 := Nat.not_le.2 hlength
    obtain ⟨cs, hcs, hspells⟩ := exists_spells hblank h hlength
    simp only [start, hmany, false_or, hspells.refine_eq_ok_iff hcs]
    constructor
    · rw [hspells.compiles]
      constructor
      · rintro ⟨_, stages, hstages, -⟩
        exact ⟨stages, hstages⟩
      · rintro ⟨stages, hstages⟩
        exact ⟨_, stages, hstages, rfl⟩
    · rintro _ ⟨stages, hstages, rfl⟩ hkept s
      refine result_eq_ok_iff_of_alike hspells.records.symm hspells.options.symm ?_ rfl
        hspells.hasLimit
      exact hspells.alike stages hstages hkept
  · have hself := refine_expr_of_length_le_one hblank h hlength
    refine ⟨iff_of_true ⟨q, hself⟩ (.inl hlength), fun whole hwhole _ s ↦ ?_⟩
    obtain rfl := Except.ok.inj (hself.symm.trans hwhole)
    rfl

/-- A group of filters with a stage behind it is made anew by the expression. -/
theorem refine_expr_of_group :
    ∃ q whole : Query, ["(age=30&page=2)", "count()"].foldlM refine { records := [] } = .ok q ∧
      q.expr = "(age=30&page=2)&count()" ∧ refine { records := [] } q.expr = .ok whole ∧
      ∀ s, whole.result = .ok s ↔ q.result = .ok s := by
  have hgroup : parse "(age=30&page=2)" = .ok ⟨"and", [.call "eq" [.value (.string "age"),
    .value (.integer 30)], .call "eq" [.value (.string "page"), .value (.integer 2)]]⟩ := by cbv
  have hcount : parse "count()" = .ok ⟨"count", []⟩ := by cbv
  have hchain := @foldlM_refine_pair { records := [] } _ _ _ _ (refine_of_parse hgroup rfl)
    (refine_of_parse hcount rfl)
  obtain ⟨haccepted, hagree⟩ := refine_expr [] {} _ _ hchain
  have hlone : ∀ clauses, ¬ LoneConjunction "count()" clauses := fun clauses h ↦
    absurd (h.eq_topClauses hcount).1 (by decide)
  have hconditions : ∀ expr ∈ ["(age=30&page=2)", "count()"], JoinsConditions expr := by
    rw [List.forall_mem_cons, List.forall_mem_singleton]
    refine ⟨fun clauses h ↦ ?_, fun clauses h ↦ absurd h (hlone clauses)⟩
    rw [(h.eq_topClauses hgroup).2]
    exact exists_forall₂_iff.1 ⟨_, .cons rfl (.cons rfl .nil)⟩
  have hkept : ∀ expr ∈ ["(age=30&page=2)", "count()"], JoinsKept {} expr := by
    rw [List.forall_mem_cons, List.forall_mem_singleton]
    refine ⟨fun clauses h ↦ ?_, fun clauses h ↦ absurd h (hlone clauses)⟩
    rw [(h.eq_topClauses hgroup).2]
    decide
  obtain ⟨whole, hwhole⟩ :=
    haccepted.2 (.inr fun expr h ↦ hconditions expr (List.mem_of_mem_filter h))
  exact ⟨_, whole, hchain, rfl, hwhole,
    hagree whole hwhole (.inr fun expr h ↦ hkept expr (List.mem_of_mem_filter h))⟩

/-- Not every expression makes the query anew. Stages in a group are no conditions, and an equality
that is ignored where its group stands alone counts where the group is joined to another text. -/
theorem expr_not_faithful :
    (¬ ∀ (records : List Record) (options : QueryOptions) (exprs : List String) (q : Query),
      exprs.foldlM refine { records, options } = .ok q → q.expr ≠ "" →
        ∃ whole, refine { records, options } q.expr = .ok whole ∧
          ∀ s, whole.result = .ok s ↔ q.result = .ok s) ∧
    ¬ ∀ (records : List Record) (options : QueryOptions) (exprs : List String) (q whole : Query),
      exprs.foldlM refine { records, options } = .ok q →
        refine { records, options } q.expr = .ok whole →
          ∀ s, whole.result = .ok s ↔ q.result = .ok s := by
  have hcount : parse "count()" = .ok ⟨"count", []⟩ := by cbv
  refine ⟨fun h ↦ ?_, fun h ↦ ?_⟩
  · have hgroup : parse "(sort(age)&limit(2))" = .ok ⟨"and", [.call "sort" [.value (.string "age")],
      .call "limit" [.value (.integer 2)]]⟩ := by cbv
    have hboth : parse "(sort(age)&limit(2))&count()" = .ok ⟨"and", [.call "and" [.call "sort"
      [.value (.string "age")], .call "limit" [.value (.integer 2)]], .call "count" []]⟩ := by cbv
    have hchain := @foldlM_refine_pair { records := [] } _ _ _ _ (refine_of_parse hgroup rfl)
      (refine_of_parse hcount rfl)
    obtain ⟨whole, hwhole, -⟩ := h [] {} _ _ hchain (by decide)
    change refine { records := [] } "(sort(age)&limit(2))&count()" = .ok whole at hwhole
    rw [refine, hboth] at hwhole
    cases hwhole
  · have hgroup : parse "(page=2&age=30)" = .ok ⟨"and", [.call "eq" [.value (.string "page"),
      .value (.integer 2)], .call "eq" [.value (.string "age"), .value (.integer 30)]]⟩ := by cbv
    have hboth : parse "(page=2&age=30)&count()" = .ok ⟨"and", [.call "and" [.call "eq"
      [.value (.string "page"), .value (.integer 2)], .call "eq" [.value (.string "age"),
      .value (.integer 30)]], .call "count" []]⟩ := by cbv
    let start : Query :=
      { records := [[("age", .integer 30), ("page", .integer 1)]]
        options := { ignoreTopEq := ["page"] } }
    have hchain := @foldlM_refine_pair start _ _ _ _ (refine_of_parse hgroup rfl)
      (refine_of_parse hcount rfl)
    have hwhole := @refine_of_parse start _ _ _ hboth rfl
    -- The group alone keeps the record, and both conditions together do not.
    have hresult := (h _ _ _ _ _ hchain hwhole (.scalar (.integer 1))).2 rfl
    cases hresult

end Agreement

end Query

end ResourceQuery
