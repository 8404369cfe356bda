import ResourceQuery.Proofs.Pipeline.Grouping
import ResourceQuery.Proofs.Value.Record

/-!
What aggregating gives for a group: a record of its key, under the written name of the reference,
and of the results of the reductions under their names. The reductions of a compiled aggregate all
have different names, so that each result is in the record; only the key is lost where one of them
has its name.
-/

set_option autoImplicit false

namespace ResourceQuery

theorem Reduction.name_injective : Function.Injective Reduction.name := by
  intro f g h
  have hlookup := Compile.lookup_reduction f
  rw [h, Compile.lookup_reduction] at hlookup
  cases hlookup
  rfl

namespace Compile

theorem field_of_innerReducer {arg : Arg} {r : Reducer} (h : innerReducer arg = .ok r) :
    r.field = none ↔ r.function = .count := by
  cases arg with
  | value v | sortKey direction key => cases h
  | call name args =>
    obtain ⟨op, -, h⟩ := bind_eq_ok_iff.1 h
    split at h
    · next function =>
      obtain ⟨found, hfound, h⟩ := bind_eq_ok_iff.1 h
      split at h
      · cases h
      · next hneeded =>
        cases h
        obtain ⟨rfl, -⟩ | ⟨_, path, hcount, -, -, rfl⟩ := Call.reducer_cases hfound
        · simpa using hneeded
        · simpa using hcount
    · cases h

/-- The reductions within an aggregate differ, and only counting does without a field. -/
theorem innerReducers_spec {seen : List Reduction} {args : List Arg} {reducers : List Reducer}
    (h : innerReducers seen args = .ok reducers) :
    (∀ r ∈ reducers, r.function ∉ seen ∧ (r.field = none ↔ r.function = .count)) ∧
      (reducers.map Reducer.function).Nodup := by
  induction args generalizing seen reducers with
  | nil =>
    cases h
    exact ⟨List.forall_mem_nil _, List.nodup_nil⟩
  | cons arg rest ih =>
    rw [innerReducers] at h
    obtain ⟨r, hr, h⟩ := bind_eq_ok_iff.1 h
    split at h
    · cases h
    · next hseen =>
      obtain ⟨more, hmore, h⟩ := bind_eq_ok_iff.1 h
      cases h
      obtain ⟨hmembers, hnodup⟩ := ih hmore
      refine ⟨List.forall_mem_cons.2 ⟨⟨hseen, field_of_innerReducer hr⟩, fun other hother ↦ ?_⟩, ?_⟩
      · obtain ⟨hfresh, hfield⟩ := hmembers other hother
        exact ⟨fun hmem ↦ hfresh (List.mem_cons_of_mem _ hmem), hfield⟩
      · rw [List.map_cons, List.nodup_cons, List.mem_map]
        refine ⟨?_, hnodup⟩
        rintro ⟨other, hother, heq⟩
        exact (hmembers other hother).1 (heq ▸ List.mem_cons_self)

theorem innerReducers_of_compile {maxLimit : Option Nat} {c : Call} {key : Path}
    {reducers : List Reducer} (h : c.compile maxLimit = .ok (.aggregate key reducers)) :
    ∃ args, innerReducers [] args = .ok reducers := by
  rw [Call.compile, Call.lookup_of_compile h, ok_bind] at h
  obtain ⟨_, _, _, _, hreducers, heq⟩ := exists_of_aggregate h
  cases heq
  exact ⟨_, hreducers⟩

end Compile

namespace State

variable {key : Path} {reducers : List Reducer} {rows : List Record} {gs : List Group} {g : Group}
  {out : Record} {s t : State}

theorem run_aggregate_eq_ok_iff :
    (Stage.aggregate key reducers).run s = .ok t ↔ ∃ rows gs emitted, s.rows? = some rows ∧
      groups key rows = .ok gs ∧
      List.Forall₂ (fun g out ↦ summarize key reducers g = .ok out) gs emitted ∧
      t = .grouped emitted := by
  rw [Stage.run, aggregate, State.rows]
  cases s.rows? with
  | none => simp
  | some rows =>
    simp only [pure_eq_ok, ok_bind, bind_eq_ok_iff, mapM_eq_ok_iff, Except.ok.injEq,
      Option.some.injEq]
    constructor
    · rintro ⟨gs, hgs, emitted, hemitted, rfl⟩
      exact ⟨rows, gs, emitted, rfl, hgs, hemitted, rfl⟩
    · rintro ⟨_, gs, emitted, rfl, hgs, hemitted, rfl⟩
      exact ⟨gs, hgs, emitted, hemitted, rfl⟩

theorem exists_of_summarize (h : summarize key reducers g = .ok out) :
    ∃ results : Record, reducers.map (·.function.name) = results.map Prod.fst ∧
      (∀ reducer ∈ reducers, ∃ v, reduceGroup g.2 reducer = .ok v ∧
        (reducer.function.name, v) ∈ results) ∧
      out = Record.ofFields ((key.name, g.1) :: results) := by
  obtain ⟨results, hresults, h⟩ := bind_eq_ok_iff.1 h
  cases h
  have hpairs : List.Forall₂ (fun (reducer : Reducer) (result : String × Value) ↦
      reducer.function.name = result.1 ∧ reduceGroup g.2 reducer = .ok result.2)
      reducers results := by
    refine (mapM_eq_ok_iff.1 hresults).imp fun reducer result hresult ↦ ?_
    obtain ⟨v, hv, hresult⟩ := bind_eq_ok_iff.1 hresult
    cases hresult
    exact ⟨rfl, hv⟩
  refine ⟨results, ?_, fun reducer hreducer ↦ ?_, rfl⟩
  · rw [← List.forall₂_eq_eq_eq, List.forall₂_map_left_iff, List.forall₂_map_right_iff]
    exact hpairs.imp fun _ _ h ↦ h.1
  · obtain ⟨⟨_, v⟩, hmem, rfl, hv⟩ := exists_mem_of_forall₂ hpairs hreducer
    exact ⟨v, hv, hmem⟩

/-- No result is lost, and the key is not unless a reduction has its name. -/
theorem fields_of_summarize (hdistinct : (reducers.map Reducer.function).Nodup)
    (h : summarize key reducers g = .ok out) :
    (∀ reducer ∈ reducers, ∃ v, reduceGroup g.2 reducer = .ok v ∧
      Record.get? reducer.function.name out = some v) ∧
    (out.length = reducers.length + 1 ↔ ∀ reducer ∈ reducers, reducer.function.name ≠ key.name) ∧
    ((∀ reducer ∈ reducers, reducer.function.name ≠ key.name) →
      Record.get? key.name out = some g.1) := by
  obtain ⟨results, hnames, hresults, rfl⟩ := exists_of_summarize h
  have hnodup : (results.map Prod.fst).Nodup := by
    have hnodup := hdistinct.map Reduction.name_injective
    rw [List.map_map] at hnodup
    rw [← hnames]
    exact hnodup
  have hlength : reducers.length = results.length := by
    simpa using congrArg List.length hnames
  have hfresh : (∀ reducer ∈ reducers, reducer.function.name ≠ key.name) ↔
      key.name ∉ results.map Prod.fst := by
    simp [← hnames]
  have hlookup : ∀ name, Record.get? name (Record.ofFields ((key.name, g.1) :: results)) =
      (Record.get? name results.reverse).or (Record.get? name [(key.name, g.1)]) := by
    intro name
    rw [Record.get?_ofFields, List.reverse_cons, Record.get?_append]
  refine ⟨fun reducer hreducer ↦ ?_, ?_, fun hclear ↦ ?_⟩
  · obtain ⟨v, hv, hmem⟩ := hresults reducer hreducer
    have hheld : Record.get? reducer.function.name results.reverse = some v :=
      Record.get?_of_mem (by simpa using hnodup) (List.mem_reverse.2 hmem)
    exact ⟨v, hv, by rw [hlookup, hheld, Option.some_or]⟩
  · rw [hfresh, hlength, ← List.length_cons, Record.length_ofFields_eq_iff, List.map_cons,
      List.nodup_cons, and_iff_left hnodup]
  · have hmissing : Record.get? key.name results.reverse = none :=
      Record.get?_eq_none_of_not_mem (by simpa using hfresh.1 hclear)
    rw [hlookup, hmissing, Option.none_or, Record.get?, if_pos rfl]

end State

/-- Each record that a compiled aggregate emits has the results of all reductions for its group,
each under the name of the reduction. It has the key of the group besides, and so one field more
than there are reductions, exactly if no reduction has the name that the key is written by. -/
theorem Stage.aggregate_fields {maxLimit : Option Nat} {c : Call} {key : Path}
    {reducers : List Reducer} (h : c.compile maxLimit = .ok (.aggregate key reducers))
    {s t : State} (hrun : (aggregate key reducers).run s = .ok t) :
    ∃ rows gs emitted, s.rows? = some rows ∧ State.groups key rows = .ok gs ∧
      t = .grouped emitted ∧ List.Forall₂ (fun (g : State.Group) (out : Record) ↦
        (out.map Prod.fst).Nodup ∧
        (∀ reducer ∈ reducers, ∃ v, State.reduceGroup g.2 reducer = .ok v ∧
          Record.get? reducer.function.name out = some v) ∧
        (out.length = reducers.length + 1 ∧ Record.get? key.name out = some g.1 ↔
          ∀ reducer ∈ reducers, reducer.function.name ≠ key.name)) gs emitted := by
  obtain ⟨args, hreducers⟩ := Compile.innerReducers_of_compile h
  obtain ⟨rows, gs, emitted, hrows, hgs, hemitted, rfl⟩ := State.run_aggregate_eq_ok_iff.1 hrun
  refine ⟨rows, gs, emitted, hrows, hgs, rfl, hemitted.imp fun g out hout ↦ ?_⟩
  obtain ⟨hresults, hlength, hkey⟩ :=
    State.fields_of_summarize (Compile.innerReducers_spec hreducers).2 hout
  refine ⟨?_, hresults, fun hfields ↦ hlength.1 hfields.1, fun hclear ↦ ?_⟩
  · obtain ⟨_, -, -, rfl⟩ := State.exists_of_summarize hout
    exact Record.nodup_names_ofFields _
  · exact ⟨hlength.2 hclear, hkey hclear⟩

/-- Hours are summed and tasks counted by their status. -/
theorem Stage.aggregate_fields_of_status :
    let c : Call := ⟨"aggregate", [.value (.string "status"),
      .call "sum" [.value (.string "hours")], .call "count" []]⟩
    let key : Path := ⟨"status", [.field "status"]⟩
    let reducers : List Reducer := [⟨.sum, some ⟨"hours", [.field "hours"]⟩⟩, ⟨.count, none⟩]
    let s : State := .records [[("status", .string "open"), ("hours", .integer 3)],
      [("status", .string "done"), ("hours", .integer 5)],
      [("status", .string "open"), ("hours", .integer 1)]]
    let emitted : List Record :=
      [[("status", .string "open"), ("sum", .integer 4), ("count", .integer 2)],
        [("status", .string "done"), ("sum", .integer 5), ("count", .integer 1)]]
    c.compile none = .ok (.aggregate key reducers) ∧
      (aggregate key reducers).run s = .ok (.grouped emitted) ∧
      ∀ out ∈ emitted, out.length = reducers.length + 1 := by
  intro c key reducers s emitted
  have hcompile : c.compile none = .ok (.aggregate key reducers) := rfl
  have hrun : (aggregate key reducers).run s = .ok (.grouped emitted) := rfl
  obtain ⟨_, gs, _, -, -, heq, hfields⟩ := aggregate_fields hcompile hrun
  cases heq
  refine ⟨hcompile, hrun, fun out hout ↦ ?_⟩
  obtain ⟨g, -, hg⟩ := exists_mem_of_forall₂ hfields.flip hout
  exact (hg.2.2.2 (by decide)).1

/-- Counting by a field that is called `count` leaves the counts alone. -/
theorem Stage.aggregate_loses_key :
    ¬ ∀ (maxLimit : Option Nat) (c : Call) (key : Path) (reducers : List Reducer)
      (rows : List Record) (emitted : List Record),
      c.compile maxLimit = .ok (.aggregate key reducers) →
        (aggregate key reducers).run (.records rows) = .ok (.grouped emitted) →
          ∀ out ∈ emitted, out.length = reducers.length + 1 := by
  intro h
  have hlength := h none ⟨"aggregate", [.value (.string "count"), .call "count" []]⟩
    ⟨"count", [.field "count"]⟩ [⟨.count, none⟩] [[("count", .string "few")]] _ rfl rfl _
    List.mem_cons_self
  cases hlength

end ResourceQuery
