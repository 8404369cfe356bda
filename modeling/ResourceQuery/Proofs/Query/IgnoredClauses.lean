import Mathlib
import ResourceQuery.Proofs.Pipeline.FieldReference
import ResourceQuery.Proofs.Query.Refinement

/-!
Clauses on ignored fields. Whether a clause is ignored is seen before it is compiled, from the text
that it writes its field as; a field that is written as a number or as a tuple of names is not seen,
although the stage tests the same field. So of the clauses that compile to an equality on one of the
fields, exactly those that write it as a text are left out, and the stages of a new query are those
of all other clauses, in their order.
-/

set_option autoImplicit false

namespace ResourceQuery

theorem Path.name_of_ofValue_string {text : String} {p : Path}
    (h : ofValue (.string text) = .ok p) : p.name = text := by
  obtain ⟨ps, hps, -, rfl⟩ := ofValue_eq_ok_iff.1 h
  rw [parts_string, Except.ok.injEq] at hps
  rw [ofParts, ← hps, intercalate_pieces]

/-- Whether a stage keeps the rows in which one of the fields equals something. -/
def Stage.IsEqualityOn (fields : List String) (s : Stage) : Prop :=
  ∃ path operand, s = .filter (.compare .eq path operand) ∧ path.name ∈ fields

namespace Call

/-- Whether the first argument of a call is a text, and not a number or a tuple of names. -/
def StartsWithText (c : Call) : Prop :=
  ∃ text rest, c.args = .value (.string text) :: rest

variable {maxLimit : Option Nat} {c : Call} {stage : Stage}

/-- An equality compiles to the comparison of the field that its first argument refers to. -/
theorem exists_of_compile_eq (hname : c.name = "eq") (h : c.compile maxLimit = .ok stage) :
    ∃ v right path operand, c.args = [.value v, right] ∧ Path.ofValue v = .ok path ∧
      stage = .filter (.compare .eq path operand) := by
  have hlookup : Compile.lookup "eq" = .ok (.comparison .eq) := Compile.lookup_eq_ok_iff.2 rfl
  rw [compile, hname, hlookup, ok_bind, bind_eq_ok_iff] at h
  obtain ⟨p, hp, hstage⟩ := h
  rw [compilePredicate, toArg, hname, Compile.predicate, hlookup, ok_bind, bind_eq_ok_iff] at hp
  obtain ⟨⟨left, right⟩, hargs, hp⟩ := hp
  simp only [bind_eq_ok_iff, pure_eq_ok, Except.ok.injEq] at hp hstage
  obtain ⟨path, hpath, operand, -, rfl⟩ := hp
  unfold Compile.twoArgs at hargs
  split at hargs
  · cases hargs
    unfold Compile.field at hpath
    split at hpath
    · exact ⟨_, right, path, operand, ‹_›, hpath, hstage.symm⟩
    · cases hpath
  · cases hargs

end Call

namespace QueryOptions

variable {options : QueryOptions} {c : Call}

theorem ignores_iff : options.ignores c = true ↔ c.name = "eq" ∧
    ∃ field rest, c.args = .value (.string field) :: rest ∧ field ∈ options.ignoreTopEq := by
  rw [ignores, Bool.and_eq_true, beq_iff_eq]
  refine and_congr_right fun _ ↦ ?_
  split
  · next field rest hargs => simp [hargs]
  · next hother =>
    simp only [Bool.false_eq_true, false_iff]
    rintro ⟨field, rest, hargs, -⟩
    exact hother field rest hargs

/-- Of the clauses that compile, those are ignored that compile to an equality on an ignored field
and write this field as a text. -/
theorem ignores_iff_of_compile {stage : Stage} (h : c.compile options.maxLimit = .ok stage) :
    options.ignores c = true ↔ stage.IsEqualityOn options.ignoreTopEq ∧ c.StartsWithText := by
  rw [ignores_iff]
  constructor
  · rintro ⟨hname, field, rest, hargs, hmem⟩
    obtain ⟨v, right, path, operand, hshape, hpath, rfl⟩ := Call.exists_of_compile_eq hname h
    rw [hargs, List.cons.injEq, Arg.value.injEq] at hshape
    obtain ⟨rfl, -⟩ := hshape
    rw [← Path.name_of_ofValue_string hpath] at hmem
    exact ⟨⟨path, operand, rfl, hmem⟩, field, rest, hargs⟩
  · rintro ⟨⟨path, operand, rfl, hmem⟩, field, rest, hargs⟩
    have hname : c.name = "eq" := (Call.name_of_compile h).symm
    obtain ⟨v, right, other, _, hshape, hpath, hstage⟩ := Call.exists_of_compile_eq hname h
    cases hstage
    rw [hargs, List.cons.injEq, Arg.value.injEq] at hshape
    obtain ⟨rfl, -⟩ := hshape
    rw [Path.name_of_ofValue_string hpath] at hmem
    exact ⟨hname, field, rest, hargs, hmem⟩

end QueryOptions

namespace Query

/-- The clauses that a text joins at its top. A blank text has none. -/
inductive ClausesOf (expr : String) : List Call → Prop
  | blank : Text.allBlank expr.toList = true → ClausesOf expr []
  | text {tree : Call} {clauses : List Call} :
      parse expr = .ok tree → TopClauses tree clauses → ClausesOf expr clauses

theorem ClausesOf.eq_of_parse {expr : String} {tree : Call} {clauses : List Call}
    (h : ClausesOf expr clauses) (hparse : parse expr = .ok tree) : clauses = topClauses tree := by
  cases h with
  | blank hblank =>
    rw [Grammar.not_blank_of_parse hparse] at hblank
    cases hblank
  | text htree htop =>
    cases hparse.symm.trans htree
    exact (topClauses_eq_iff.2 htop).symm

/-- The stages of a new query are those of the clauses that are not ignored. -/
theorem exists_clausesOf_of_refine {records : List Record} {options : QueryOptions}
    {expr : String} {q : Query} (h : refine { records, options } expr = .ok q) :
    ∃ clauses, ClausesOf expr clauses ∧
      CompilesTo options.maxLimit (clauses.filter (!options.ignores ·)) q.pipeline := by
  obtain ⟨hblank, rfl⟩ | ⟨tree, stages, hparse, hstages, rfl⟩ := refine_eq_ok_iff.1 h
  · exact ⟨[], .blank hblank, .nil⟩
  · exact ⟨_, .text hparse (topClauses_eq_iff.1 rfl), hstages⟩

theorem CompilesTo.exists_clause {maxLimit : Option Nat} {clauses : List Call}
    {stages : List Stage} (h : CompilesTo maxLimit clauses stages) {stage : Stage}
    (hstage : stage ∈ stages) : ∃ c ∈ clauses, c.compile maxLimit = .ok stage :=
  exists_mem_of_forall₂ (List.Forall₂.flip h) hstage

/-- What the options of a new query remove from an expression. The stages are those of the clauses
that are not ignored. A clause that compiles is ignored exactly if its stage is an equality on an
ignored field and it writes this field as a text. So the query is free of such equalities exactly if
all of them are written in this way. -/
theorem ignored_clauses_exact {records : List Record} {options : QueryOptions} {expr : String}
    {q : Query} (h : refine { records, options } expr = .ok q) :
    ∃ clauses, ClausesOf expr clauses ∧
      CompilesTo options.maxLimit (clauses.filter (!options.ignores ·)) q.pipeline ∧
      (∀ c ∈ clauses, ∀ stage, c.compile options.maxLimit = .ok stage →
        (options.ignores c = true ↔
          stage.IsEqualityOn options.ignoreTopEq ∧ c.StartsWithText)) ∧
      ((∀ stage ∈ q.pipeline, ¬ stage.IsEqualityOn options.ignoreTopEq) ↔
        ∀ c ∈ clauses, ∀ stage, c.compile options.maxLimit = .ok stage →
          stage.IsEqualityOn options.ignoreTopEq → c.StartsWithText) := by
  obtain ⟨clauses, hclauses, hpipeline⟩ := exists_clausesOf_of_refine h
  refine ⟨clauses, hclauses, hpipeline, fun c _ stage ↦ QueryOptions.ignores_iff_of_compile,
    fun hfree ↦ ?_, fun htext ↦ ?_⟩
  · intro c hc stage hcompile hequality
    by_contra hother
    -- A clause that is not ignored has its stage in the pipeline.
    have hkept : c ∈ clauses.filter (!options.ignores ·) := by
      rw [List.mem_filter, Bool.not_eq_true', Bool.eq_false_iff]
      refine ⟨hc, fun hignored ↦ hother ?_⟩
      exact ((QueryOptions.ignores_iff_of_compile hcompile).1 hignored).2
    obtain ⟨other, hmem, hcompiled⟩ := exists_mem_of_forall₂ hpipeline hkept
    obtain rfl := Except.ok.inj (hcompile.symm.trans hcompiled)
    exact hfree _ hmem hequality
  · intro stage hstage hequality
    obtain ⟨c, hkept, hcompile⟩ := hpipeline.exists_clause hstage
    obtain ⟨hc, hignores⟩ := List.mem_filter.1 hkept
    have hignored := (QueryOptions.ignores_iff_of_compile hcompile).2
      ⟨hequality, htext c hc stage hcompile hequality⟩
    rw [hignored] at hignores
    cases hignores

/-- A page is dropped from a query whatever stands with it. -/
theorem ignored_clauses_of_page :
    let options : QueryOptions := { ignoreTopEq := ["page"] }
    ∃ q, refine { records := [], options } "page=2&age=gt=30" = .ok q ∧
      q.pipeline = [.filter (.compare .gt ⟨"age", [.field "age"]⟩ (.literal (.integer 30)))] ∧
      ∀ stage ∈ q.pipeline, ¬ stage.IsEqualityOn ["page"] := by
  intro options
  have hparse : parse "page=2&age=gt=30" = .ok ⟨"and", [.call "eq" [.value (.string "page"),
    .value (.integer 2)], .call "gt" [.value (.string "age"), .value (.integer 30)]]⟩ := by cbv
  have hrefine := @refine_of_parse { records := [], options } _ _ _ hparse rfl
  obtain ⟨clauses, hclauses, -, -, hfree⟩ := ignored_clauses_exact hrefine
  refine ⟨_, hrefine, rfl, hfree.2 fun c hc stage _ _ ↦ ?_⟩
  obtain rfl := hclauses.eq_of_parse hparse
  obtain rfl | hc := List.mem_cons.1 hc
  · exact ⟨"page", _, rfl⟩
  · obtain rfl := List.mem_singleton.1 hc
    exact ⟨"age", _, rfl⟩

/-- A field of a field is listed under its dotted name, and its equality stays where the clause
writes it as a tuple. -/
theorem tuple_not_ignored :
    ¬ ∀ (records : List Record) (options : QueryOptions) (expr : String) (q : Query),
      refine { records, options } expr = .ok q →
        ∀ stage ∈ q.pipeline, ¬ stage.IsEqualityOn options.ignoreTopEq := by
  intro h
  have hparse : parse "(address,city)=Oslo" = .ok ⟨"eq", [.value (.array [.string "address",
    .string "city"]), .value (.string "Oslo")]⟩ := by cbv
  have hrefine := @refine_of_parse { records := [], options := { ignoreTopEq := ["address.city"] } }
    _ _ _ hparse rfl
  exact h [] _ _ _ hrefine _ List.mem_cons_self
    ⟨⟨"address.city", [.field "address", .field "city"]⟩, _, rfl, List.mem_cons_self⟩

end Query

end ResourceQuery
