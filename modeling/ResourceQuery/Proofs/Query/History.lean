import Mathlib.Data.List.Induction
import ResourceQuery.Proofs.Query.Refinement
import ResourceQuery.Proofs.Query.Result

/-!
Histories of a query: refinements, which may fail, and changes of options, in any order. A query
that is the outcome of a history holds no more than its history tells: its clauses and stages go
together one by one, each was added by one refinement under the options of that time, and what the
query remembers about limits is what its pipeline shows.
-/

set_option autoImplicit false

namespace ResourceQuery

open Stage (runAll FailsAt)

namespace Query

/-- What happens to a query: it is refined, or it is given other options. -/
inductive Event where
  | refine (expr : String)
  | setOptions (options : QueryOptions)

/-- A refinement that fails leaves the query as it is. -/
def next (q : Query) : Event → Query
  | .refine expr =>
    match q.refine expr with
    | .ok refined => refined
    | .error _ => q
  | .setOptions options => q.withOptions options

/-- The query at the end of a history. -/
def after (start : Query) (events : List Event) : Query :=
  events.foldl next start

theorem after_concat (start : Query) (events : List Event) (event : Event) :
    start.after (events ++ [event]) = (start.after events).next event :=
  List.foldl_concat next start event events

/-- All that an event can do. -/
theorem next_cases (q : Query) (event : Event) :
    q.next event = q ∨
    (∃ options, event = .setOptions options ∧ q.next event = q.withOptions options) ∨
    ∃ expr tree stages, event = .refine expr ∧ parse expr = .ok tree ∧
      CompilesTo q.options.maxLimit (keptClauses q.options tree) stages ∧
      q.refine expr = .ok (q.next event) ∧
      q.next event = q.extend expr (keptClauses q.options tree) stages := by
  cases event with
  | setOptions options => exact .inr (.inl ⟨options, rfl, rfl⟩)
  | refine expr =>
    rw [next]
    cases hrefine : q.refine expr with
    | error e => exact .inl rfl
    | ok refined =>
      obtain ⟨_, rfl⟩ | ⟨tree, stages, htree, hstages, hrefined⟩ := refine_eq_ok_iff.1 hrefine
      · exact .inl rfl
      · exact .inr (.inr ⟨expr, tree, stages, rfl, htree, hstages, hrefine, hrefined⟩)

/-- Refining by `expr` puts the stage of a clause in place `i`, counted from the start of the
pipeline: the clause is the one in place `i` behind the stages that are there already, and its stage
is compiled under the limit of the query. -/
def Adds (q : Query) (expr : String) (i : Nat) (clause : Call) (stage : Stage) : Prop :=
  ∃ tree k refined, parse expr = .ok tree ∧ (keptClauses q.options tree)[k]? = some clause ∧
    i = q.pipeline.length + k ∧ clause.compile q.options.maxLimit = .ok stage ∧
    q.refine expr = .ok refined

/-- Some refinement of a history added the stage in place `i`. -/
def AddedIn (start : Query) (events : List Event) (i : Nat) (clause : Call) (stage : Stage) :
    Prop :=
  ∃ past expr future, events = past ++ .refine expr :: future ∧
    (start.after past).Adds expr i clause stage

theorem AddedIn.name_eq {start : Query} {events : List Event} {i : Nat} {clause : Call}
    {stage : Stage} (h : AddedIn start events i clause stage) : stage.name = clause.name := by
  obtain ⟨_, _, _, _, _, _, _, _, _, _, hcompile, _⟩ := h
  exact Call.name_of_compile hcompile

theorem AddedIn.concat {start : Query} {events : List Event} {i : Nat} {clause : Call}
    {stage : Stage} (h : AddedIn start events i clause stage) (event : Event) :
    AddedIn start (events ++ [event]) i clause stage := by
  obtain ⟨past, expr, future, rfl, hadds⟩ := h
  exact ⟨past, expr, future ++ [event], by simp, hadds⟩

/-- A query holds what its history tells. -/
structure Follows (start : Query) (events : List Event) (q : Query) : Prop where
  records : q.records = start.records
  length : q.clauses.length = q.pipeline.length
  hasLimit : q.hasLimit = q.pipeline.any Stage.isLimit
  added : ∀ i clause, q.clauses[i]? = some clause →
    ∃ stage, q.pipeline[i]? = some stage ∧ AddedIn start events i clause stage

/-- One event keeps a query in line with its history. -/
theorem Follows.next {start : Query} {events : List Event}
    (h : Follows start events (start.after events)) (event : Event) :
    Follows start (events ++ [event]) (start.after (events ++ [event])) := by
  rw [after_concat]
  generalize hq : start.after events = q at h ⊢
  have hadded : ∀ i clause, q.clauses[i]? = some clause → ∃ stage, q.pipeline[i]? = some stage ∧
      AddedIn start (events ++ [event]) i clause stage := by
    intro i clause hi
    obtain ⟨stage, hstage, hin⟩ := h.added i clause hi
    exact ⟨stage, hstage, hin.concat event⟩
  obtain hnext | ⟨options, rfl, hnext⟩ |
      ⟨expr, tree, stages, rfl, htree, hstages, hrefine, hnext⟩ := q.next_cases event
  · rw [hnext]
    exact ⟨h.records, h.length, h.hasLimit, hadded⟩
  · rw [hnext]
    exact ⟨h.records, h.length, h.hasLimit, hadded⟩
  · rw [hnext]
    refine ⟨h.records, ?_, ?_, fun i clause hi ↦ ?_⟩
    · simp only [extend, List.length_append, h.length, hstages.length_eq]
    · simp only [extend, List.any_append, h.hasLimit]
    · simp only [extend] at hi ⊢
      rcases Nat.lt_or_ge i q.clauses.length with hlt | hge
      · rw [List.getElem?_append_left hlt] at hi
        rw [List.getElem?_append_left (h.length ▸ hlt)]
        exact hadded i clause hi
      · rw [List.getElem?_append_right hge] at hi
        rw [List.getElem?_append_right (h.length ▸ hge), ← h.length]
        obtain ⟨stage, hstage, hcompile⟩ := hstages.getElem? hi
        refine ⟨stage, hstage, events, expr, [], rfl, ?_⟩
        rw [hq]
        exact ⟨tree, _, _, htree, hi, by rw [← h.length]; omega, hcompile, hrefine⟩

theorem follows_after (records : List Record) (options : QueryOptions) (events : List Event) :
    Follows { records, options } events (after { records, options } events) := by
  induction events using List.reverseRecOn with
  | nil => exact ⟨rfl, rfl, rfl, fun i clause hi ↦ by simp [after] at hi⟩
  | append_singleton events event ih => exact ih.next event

end Query

end ResourceQuery
