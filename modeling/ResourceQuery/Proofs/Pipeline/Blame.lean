import ResourceQuery.Proofs.Pipeline.Compilation

/-!
What a failure blames. Some errors find fault with a call: with its name, the number of its
arguments or the kind of one of them. Compilation looks for these, and all that a compiled stage
does afterwards blames the data only, with one exception: whether a reduction needs a field depends
on the state, so that this is seen only where the stage runs. The main statement says exactly when.
-/

set_option autoImplicit false

namespace ResourceQuery

/-- Whether an error finds fault with a call and not with the data. -/
def EvalError.blamesCall : EvalError → Bool
  | .unknownOperator _ | .arity _ _ _ | .invalidArgument _ _ => true
  | .stage _ _ source => source.blamesCall
  | _ => false

/-- Whether an error finds that a record lacks a field or that values are of the wrong kind. -/
def EvalError.blamesData : EvalError → Bool
  | .missingField _ | .typeError _ => true
  | _ => false

/-- If the computation fails, this is not because of a call. -/
abbrev SparesCall {α : Type} (x : Except EvalError α) : Prop :=
  FailsOnly (fun e ↦ e.blamesCall = false) x

/-- If the computation fails, this is because of the records and values it is given. -/
abbrev BlamesData {α : Type} (x : Except EvalError α) : Prop :=
  FailsOnly (fun e ↦ e.blamesData = true) x

theorem FailsOnly.sparesCall {α : Type} {x : Except EvalError α} (h : BlamesData x) :
    SparesCall x := by
  refine h.mono fun e he ↦ ?_
  cases e with
  | missingField _ | typeError _ => rfl
  | _ => cases he

namespace Path

theorem blamesData_step (name : String) (v : Value) (segment : Segment) :
    BlamesData (step name v segment) := by
  unfold step
  refine FailsOnly.bind ?_ fun found ↦ ?_
  · split <;> simp [EvalError.blamesData]
  · cases found <;> simp [EvalError.blamesData]

theorem blamesData_walk (name : String) (v : Value) (segments : List Segment) :
    BlamesData (walk name v segments) := by
  induction segments generalizing v with
  | nil => exact failsOnly_ok v
  | cons segment rest ih => exact (blamesData_step name v segment).bind ih

theorem blamesData_lookup (p : Path) (r : Record) : BlamesData (p.lookup r) := by
  unfold lookup
  split
  · exact failsOnly_error_iff.2 rfl
  · exact blamesData_walk _ _ _

theorem blamesData_child (name : String) (old : Option Value) (rest : List Segment) :
    BlamesData (child name old rest) := by
  unfold child
  split <;> simp [EvalError.blamesData]

theorem blamesData_replace (name : String) (value : Value) (segments : List Segment) (v : Value) :
    BlamesData (replace name value segments v) := by
  induction segments generalizing v with
  | nil => exact failsOnly_ok value
  | cons segment rest ih =>
    unfold replace
    split
    · exact (blamesData_child _ _ _).bind fun old ↦ (ih old).map _
    · split
      · exact (ih _).map _
      · exact failsOnly_error_iff.2 rfl
    · exact failsOnly_error_iff.2 rfl

theorem blamesData_assign (p : Path) (r : Record) (value : Value) :
    BlamesData (p.assign r value) := by
  unfold assign
  split
  · exact failsOnly_error_iff.2 rfl
  · exact (blamesData_child _ _ _).bind fun _ ↦
      (blamesData_replace _ _ _ _).map _

theorem blamesData_extract (p : Path) (rows : List Record) : BlamesData (p.extract rows) :=
  failsOnly_mapM (blamesData_lookup p) rows

end Path

namespace Predicate

theorem blamesData_comparison (op : Comparison) (left right : Value) :
    BlamesData (op.test left right) := by
  unfold Comparison.test
  split
  · exact failsOnly_ok _
  · exact failsOnly_ok _
  · split <;> simp [EvalError.blamesData]

theorem blamesData_operandValue (r : Record) (operand : Operand) :
    BlamesData (operandValue r operand) := by
  cases operand with
  | literal v => exact failsOnly_ok v
  | field path => exact path.blamesData_lookup r

theorem blamesData_holds (negated : Bool) (field : String) (needle v : Value) :
    BlamesData (holds negated field needle v) := by
  unfold holds
  split
  · exact failsOnly_ok _
  · split <;> simp [EvalError.blamesData]
  · exact failsOnly_error_iff.2 rfl

mutual

theorem blamesData_test (r : Record) : ∀ p : Predicate, BlamesData (p.test r)
  | .compare op field operand => by
    rw [test]
    exact (field.blamesData_lookup r).bind fun left ↦
      (blamesData_operandValue r operand).bind fun right ↦ blamesData_comparison op left right
  | .member negated field set => by
    rw [test]
    exact (field.blamesData_lookup r).map _
  | .contains negated field needle => by
    rw [test]
    exact (field.blamesData_lookup r).bind fun v ↦
      (blamesData_holds negated field.name needle v).map _
  | .and conditions => by
    rw [test]
    exact blamesData_testAll r conditions
  | .or conditions => by
    rw [test]
    exact blamesData_testAny r conditions

theorem blamesData_testAll (r : Record) : ∀ ps : List Predicate, BlamesData (testAll r ps)
  | [] => failsOnly_ok true
  | p :: rest => by
    rw [testAll]
    refine (blamesData_test r p).bind fun holds ↦ ?_
    split
    · exact blamesData_testAll r rest
    · exact failsOnly_pure false

theorem blamesData_testAny (r : Record) : ∀ ps : List Predicate, BlamesData (testAny r ps)
  | [] => failsOnly_ok false
  | p :: rest => by
    rw [testAny]
    refine (blamesData_test r p).bind fun holds ↦ ?_
    split
    · exact failsOnly_pure true
    · exact blamesData_testAny r rest

end

theorem blamesData_keep (p : Predicate) (rows : List Record) : BlamesData (p.keep rows) := by
  induction rows with
  | nil => exact failsOnly_ok []
  | cons r rest ih =>
    rw [keep]
    refine (blamesData_test r p).bind fun holds ↦ ?_
    split
    · exact ih.map _
    · exact ih

end Predicate

end ResourceQuery

namespace ResourceQuery.Sort

variable {α : Type}

/-- Whether an error names two keys that do not compare. -/
def Unsortable (e : EvalError) : Prop :=
  ∃ left right, e = .typeError (.unsortable left right)

theorem failsOnly_compareKeys (directions : List Direction) (xs ys : List Value) :
    FailsOnly Unsortable (compareKeys directions xs ys) := by
  fun_induction compareKeys directions xs ys with
  | case1 _ _ _ _ _ _ _ ih => exact ih
  | case2 => exact failsOnly_ok _
  | case3 => exact failsOnly_error_iff.2 ⟨_, _, rfl⟩
  | case4 => exact failsOnly_ok _

theorem failsOnly_insert (directions : List Direction) (x : Keyed α) (sorted : List (Keyed α)) :
    FailsOnly Unsortable (insert directions x sorted) := by
  induction sorted with
  | nil => exact failsOnly_ok [x]
  | cons y rest ih =>
    rw [insert]
    refine (failsOnly_compareKeys directions x.1 y.1).bind fun order ↦ ?_
    split
    · exact ih.map _
    · exact failsOnly_pure _

theorem failsOnly_insertAll (directions : List Direction) (sorted elements : List (Keyed α)) :
    FailsOnly Unsortable (insertAll directions sorted elements) := by
  induction elements generalizing sorted with
  | nil => exact failsOnly_ok sorted
  | cons x rest ih => exact (failsOnly_insert directions x sorted).bind ih

theorem failsOnly_byKeys (directions : List Direction) (elements : List (Keyed α)) :
    FailsOnly Unsortable (byKeys directions elements) :=
  (failsOnly_insertAll directions [] elements).map _

theorem blamesData_byKeys (directions : List Direction) (elements : List (Keyed α)) :
    BlamesData (byKeys directions elements) :=
  (failsOnly_byKeys directions elements).mono fun _ ⟨_, _, h⟩ ↦ h ▸ rfl

end ResourceQuery.Sort

namespace ResourceQuery

namespace Reduce

/-- Whether an error finds a value of the wrong kind, or one that is out of range. -/
def Mistyped (e : EvalError) : Prop :=
  ∃ fault, e = .typeError fault

theorem failsOnly_toDecimal (v : Value) : FailsOnly Mistyped (toDecimal v) := by
  unfold toDecimal
  dsimp only
  split
  · exact failsOnly_ok _
  · exact failsOnly_error_iff.2 ⟨_, rfl⟩

theorem failsOnly_addDecimals (a b : Value) : FailsOnly Mistyped (addDecimals a b) := by
  refine (failsOnly_toDecimal a).bind fun d ↦ (failsOnly_toDecimal b).bind fun e ↦ ?_
  split
  · exact failsOnly_pure _
  · exact failsOnly_error_iff.2 ⟨_, rfl⟩

theorem failsOnly_add (total v : Value) : FailsOnly Mistyped (add total v) := by
  unfold add
  split
  · exact failsOnly_error_iff.2 ⟨_, rfl⟩
  · split
    · split <;> exact failsOnly_ok _
    · exact failsOnly_addDecimals _ _
    · exact failsOnly_addDecimals _ _
    · split
      · exact failsOnly_ok _
      · exact failsOnly_error_iff.2 ⟨_, rfl⟩

theorem failsOnly_sum (values : List Value) : FailsOnly Mistyped (sum values) :=
  failsOnly_foldlM failsOnly_add _ values

theorem blamesData_sum (values : List Value) : BlamesData (sum values) :=
  (failsOnly_sum values).mono fun _ ⟨_, h⟩ ↦ h ▸ rfl

theorem blamesData_divide (total : Value) (length : Nat) : BlamesData (divide total length) := by
  unfold divide
  split
  · split <;> exact failsOnly_ok _
  · split <;> simp [EvalError.blamesData]
  · split <;> simp [notNumeric, EvalError.blamesData]

theorem blamesData_mean {values : List Value} (h : values ≠ []) : BlamesData (mean values) := by
  rw [mean, if_neg (by simpa using h)]
  exact (blamesData_sum values).bind fun total ↦ blamesData_divide total values.length

theorem blamesData_extremeFrom (function : Reduction) (wanted : Ordering) (best : Value)
    (values : List Value) : BlamesData (extremeFrom function wanted best values) := by
  induction values generalizing best with
  | nil => exact failsOnly_ok best
  | cons v rest ih =>
    rw [extremeFrom]
    split
    · exact ih _
    · exact failsOnly_error_iff.2 rfl

theorem blamesData_extreme (function : Reduction) (wanted : Ordering) {values : List Value}
    (h : values ≠ []) : BlamesData (extreme function wanted values) := by
  cases values with
  | nil => exact absurd rfl h
  | cons first rest => exact blamesData_extremeFrom function wanted first rest

theorem blamesData_apply (function : Reduction) {values : List Value} (h : values ≠ []) :
    BlamesData (function.apply values) := by
  cases function with
  | count => exact failsOnly_ok _
  | sum => exact blamesData_sum values
  | mean => exact blamesData_mean h
  | min => exact blamesData_extreme .min .lt h
  | max => exact blamesData_extreme .max .gt h

/-- Besides the values, only their absence is blamed. -/
theorem sparesCall_apply (function : Reduction) (values : List Value) :
    SparesCall (function.apply values) := by
  by_cases h : values = []
  · subst h
    cases function with
    | count | sum => exact failsOnly_ok _
    | mean | min | max => exact failsOnly_error_iff.2 rfl
  · exact (blamesData_apply function h).sparesCall

end Reduce

namespace State

theorem sparesCall_rows (op : Operator) (s : State) : SparesCall (s.rows op) := by
  unfold rows
  split
  · exact failsOnly_ok _
  · exact failsOnly_error_iff.2 rfl

theorem sparesCall_items (op : Operator) (s : State) : SparesCall (s.items op) := by
  unfold items
  split
  · exact failsOnly_ok _
  · exact failsOnly_error_iff.2 rfl

theorem sparesCall_reorder (op : Operator) (change : {α : Type} → List α → List α) (s : State) :
    SparesCall (s.reorder op change) := by
  unfold reorder
  split
  · exact failsOnly_ok _
  · exact failsOnly_error_iff.2 rfl

theorem sparesCall_filter (p : Predicate) (s : State) : SparesCall (s.filter p) := by
  cases s with
  | records rows | grouped rows => exact (p.blamesData_keep rows).sparesCall.map _
  | values vs | scalar v => exact failsOnly_error_iff.2 rfl

theorem blamesData_project (fields : List Path) (r : Record) : BlamesData (project fields r) := by
  refine FailsOnly.bind (failsOnly_mapM (fun field ↦ ?_) fields) fun _ ↦ failsOnly_pure _
  exact (field.blamesData_lookup r).map _

theorem sparesCall_select (fields : List Path) (s : State) : SparesCall (s.select fields) := by
  unfold select
  split
  · exact (failsOnly_mapM (blamesData_project fields) _).sparesCall.map _
  · exact (failsOnly_mapM (blamesData_project fields) _).sparesCall.map _
  · exact (blamesData_project fields _).sparesCall.map _
  · exact failsOnly_error_iff.2 rfl

theorem sparesCall_extractValues (field : Path) (s : State) : SparesCall (s.extractValues field) :=
  (sparesCall_rows .values s).bind fun rows ↦
    (field.blamesData_extract rows).sparesCall.map _

theorem sparesCall_key (field : Path) (s : State) : SparesCall (s.key field) := by
  unfold key
  split
  · exact (field.blamesData_extract _).sparesCall.map _
  · exact (field.blamesData_extract _).sparesCall.map _
  · exact (field.blamesData_lookup _).sparesCall.map _
  · exact failsOnly_error_iff.2 rfl

theorem blamesData_sortRows (keys : List SortSpec) (rows : List Record) :
    BlamesData (sortRows keys rows) := by
  refine FailsOnly.bind (failsOnly_mapM (fun r ↦ ?_) rows) fun keyed ↦
    Sort.blamesData_byKeys _ keyed
  exact (failsOnly_mapM (fun key ↦ key.field.blamesData_lookup r) keys).map _

theorem sparesCall_sort (keys : List SortSpec) (s : State) : SparesCall (s.sort keys) := by
  unfold sort
  split
  · split
    · exact (Sort.blamesData_byKeys _ _).sparesCall.map _
    · exact failsOnly_error_iff.2 rfl
  · split
    · exact (blamesData_sortRows keys _).sparesCall.map _
    · exact (blamesData_sortRows keys _).sparesCall.map _
    · exact failsOnly_error_iff.2 rfl

theorem sparesCall_distinct (s : State) : SparesCall s.distinct := by
  cases s with
  | scalar v => exact failsOnly_error_iff.2 rfl
  | _ => exact failsOnly_ok _

theorem sparesCall_first (s : State) : SparesCall s.first := by
  refine (sparesCall_items .first s).bind fun items ↦ ?_
  cases items with
  | nil => exact failsOnly_error_iff.2 rfl
  | cons v _ => exact failsOnly_pure _

theorem sparesCall_one (s : State) : SparesCall s.one := by
  refine (sparesCall_items .one s).bind fun items ↦ ?_
  split
  · exact failsOnly_pure _
  · exact failsOnly_error_iff.2 rfl

theorem sparesCall_index (n : Int64) (s : State) : SparesCall (s.index n) := by
  refine (sparesCall_items .index s).bind fun items ↦ ?_
  split
  · exact failsOnly_pure _
  · exact failsOnly_error_iff.2 rfl

theorem blamesData_unwindRow (field : Path) (r : Record) : BlamesData (unwindRow field r) := by
  refine (field.blamesData_lookup r).bind fun v ↦ ?_
  split
  · exact failsOnly_mapM (field.blamesData_assign r) _
  · exact failsOnly_error_iff.2 rfl

theorem sparesCall_unwind (field : Path) (s : State) : SparesCall (s.unwind field) :=
  (sparesCall_rows .unwind s).bind fun rows ↦
    (failsOnly_mapM (blamesData_unwindRow field) rows).sparesCall.map _

theorem blamesData_groups (key : Path) (rows : List Record) : BlamesData (groups key rows) :=
  failsOnly_foldlM (fun _ r ↦ (key.blamesData_lookup r).map _) _ rows

theorem sparesCall_reduceGroup (members : List Record) (reducer : Reducer) :
    SparesCall (reduceGroup members reducer) := by
  unfold reduceGroup
  split
  · next field _ =>
    exact (field.blamesData_extract members).sparesCall.bind
      (Reduce.sparesCall_apply reducer.function)
  · exact failsOnly_ok _

/-- The rows of a group are never too few for a reduction. -/
theorem blamesData_reduceGroup {members : List Record} (h : members ≠ []) (reducer : Reducer) :
    BlamesData (reduceGroup members reducer) := by
  unfold reduceGroup
  split
  · next field _ =>
    cases hvs : field.extract members with
    | error e => exact failsOnly_error_iff.2 (field.blamesData_extract members e hvs)
    | ok vs =>
      have hlength : members.length = vs.length := (mapM_eq_ok_iff.1 hvs).length_eq
      refine Reduce.blamesData_apply reducer.function ?_
      rwa [← List.length_pos_iff, ← hlength, List.length_pos_iff]
  · exact failsOnly_ok _

theorem sparesCall_summarize (key : Path) (reducers : List Reducer) (g : Group) :
    SparesCall (summarize key reducers g) := by
  refine FailsOnly.bind (failsOnly_mapM (fun reducer ↦ ?_) reducers) fun _ ↦ failsOnly_pure _
  exact (sparesCall_reduceGroup g.2 reducer).map _

theorem sparesCall_aggregate (key : Path) (reducers : List Reducer) (s : State) :
    SparesCall (s.aggregate key reducers) :=
  (sparesCall_rows .aggregate s).bind fun rows ↦
    (blamesData_groups key rows).sparesCall.bind fun groups ↦
      (failsOnly_mapM (sparesCall_summarize key reducers) groups).map _

/-- A reduction blames the call for a field that bare values do not have, and for the lack of a
field where there are records to read it in. -/
theorem reduce_eq_error_iff {reducer : Reducer} {s : State} {e : EvalError}
    (he : e.blamesCall = true) :
    s.reduce reducer = .error e ↔
      (reducer.field = none ∧ reducer.function ≠ .count ∧ (∃ rows, s.rows? = some rows) ∧
        e = .arity (.reduction reducer.function) (.exactly 1) 0) ∨
      ∃ field vs, reducer.field = some field ∧ s = .values vs ∧
        e = .invalidArgument (.reduction reducer.function) (.bareValues field.name) := by
  have hspared : ∀ {x : Except EvalError State}, SparesCall x → x ≠ .error e := by
    rintro x hx rfl
    rw [hx e rfl] at he
    cases he
  obtain ⟨function, field?⟩ := reducer
  cases s with
  | values vs =>
    cases field? with
    | none =>
      have happly : SparesCall (reduce ⟨function, none⟩ (.values vs)) :=
        (Reduce.sparesCall_apply function vs).map _
      simpa [rows?] using hspared happly
    | some field => simp [reduce, rows?, eq_comm]
  | records rows | grouped rows =>
    by_cases hcount : function = .count
    · simp [reduce, hcount]
    · cases field? with
      | none => simp [reduce, rows?, hcount, eq_comm]
      | some field =>
        have hreduce := (field.blamesData_extract rows).sparesCall.bind fun vs ↦
          (Reduce.sparesCall_apply function vs).map State.scalar
        simpa [reduce, hcount] using hspared hreduce
  | scalar v =>
    have hmismatch : SparesCall (reduce ⟨function, field?⟩ (.scalar v)) :=
      failsOnly_error_iff.2 rfl
    simpa [rows?] using hspared hmismatch

end State

/-- Every stage but a reduction has been checked in full when it was compiled. -/
theorem Stage.sparesCall_run {stage : Stage} (h : ∀ reducer, stage ≠ .reduce reducer) (s : State) :
    SparesCall (stage.run s) := by
  cases stage with
  | filter p => exact s.sparesCall_filter p
  | select fields => exact s.sparesCall_select fields
  | values field => exact s.sparesCall_extractValues field
  | sort keys => exact s.sparesCall_sort keys
  | limit count start => exact s.sparesCall_reorder .limit _
  | slice start stop step => exact s.sparesCall_reorder .slice _
  | index n => exact s.sparesCall_index n
  | distinct => exact s.sparesCall_distinct
  | first => exact s.sparesCall_first
  | one => exact s.sparesCall_one
  | unwind field => exact s.sparesCall_unwind field
  | key field => exact s.sparesCall_key field
  | reduce reducer => exact absurd rfl (h reducer)
  | aggregate key reducers => exact s.sparesCall_aggregate key reducers

theorem Compile.lookup_reduction (function : Reduction) :
    lookup function.name = .ok (.reduction function) :=
  lookup_eq_ok_iff.2 rfl

namespace Call

open Compile (field reducer lookup_reduction)

variable {maxLimit : Option Nat}

theorem compile_reduction (function : Reduction) (args : List Arg) :
    (Call.mk function.name args).compile maxLimit =
      (reducer function args >>= fun r ↦ .ok (.reduce r)) := by
  rw [compile, lookup_reduction]
  rfl

/-- A call that compiles as a reduction is a reduction of the same name. -/
theorem eq_of_compile_reduce {c : Call} {r : Reducer} (h : c.compile maxLimit = .ok (.reduce r)) :
    c.name = r.function.name ∧ reducer r.function c.args = .ok r := by
  have hname : c.name = r.function.name := (name_of_compile h).symm
  obtain ⟨name, args⟩ := c
  obtain rfl : name = r.function.name := hname
  rw [compile_reduction, bind_eq_ok_iff] at h
  obtain ⟨_, hreducer, h⟩ := h
  cases h
  exact ⟨rfl, hreducer⟩

theorem reducer_nil (function : Reduction) : reducer function [] = .ok ⟨function, none⟩ := by
  cases function <;> rfl

theorem reducer_singleton {function : Reduction} (hcount : function ≠ .count) (arg : Arg) :
    reducer function [arg] =
      (field (.reduction function) arg >>= fun path ↦ .ok ⟨function, some path⟩) := by
  cases function with
  | count => exact absurd rfl hcount
  | _ => rfl

/-- All that a reduction can take: no field, or one that it is not going to count. -/
theorem reducer_cases {function : Reduction} {args : List Arg} {r : Reducer}
    (h : reducer function args = .ok r) :
    (r = ⟨function, none⟩ ∧ (function = .count ∨ args = [])) ∨
      ∃ reference path, function ≠ .count ∧ args = [.value reference] ∧
        Path.ofValue reference = .ok path ∧ r = ⟨function, some path⟩ := by
  by_cases hcount : function = .count
  · subst hcount
    obtain ⟨_, -, h⟩ := bind_eq_ok_iff.1 h
    cases h
    exact .inl ⟨rfl, .inl rfl⟩
  · rcases args with _ | ⟨arg, _ | ⟨other, rest⟩⟩
    · rw [reducer_nil] at h
      cases h
      exact .inl ⟨rfl, .inr rfl⟩
    · rw [reducer_singleton hcount, bind_eq_ok_iff] at h
      obtain ⟨path, hpath, h⟩ := h
      cases h
      cases arg with
      | value reference => exact .inr ⟨reference, path, hcount, rfl, hpath, rfl⟩
      | call name args | sortKey direction key => cases hpath
    · obtain ⟨_, harity, -⟩ := bind_eq_ok_iff.1 h
      simp [Compile.expectArity, Arity.admits] at harity

/-- Where a reduction without a field is applied to rows. -/
def NeedsField (c : Call) (s : State) (e : EvalError) : Prop :=
  ∃ function, function ≠ .count ∧ c = ⟨function.name, []⟩ ∧ (∃ rows, s.rows? = some rows) ∧
    e = .arity (.reduction function) (.exactly 1) 0

/-- Where a reduction with a field is applied to bare values. -/
def MisplacesField (c : Call) (s : State) (e : EvalError) : Prop :=
  ∃ function reference path vs, function ≠ .count ∧ c = ⟨function.name, [.value reference]⟩ ∧
    Path.ofValue reference = .ok path ∧ s = .values vs ∧
    e = .invalidArgument (.reduction function) (.bareValues path.name)

/-- The failures of a compiled call that blame the call. -/
theorem run_compiled_eq_error_iff {c : Call} {stage : Stage} (h : c.compile maxLimit = .ok stage)
    {s : State} {e : EvalError} (he : e.blamesCall = true) :
    stage.run s = .error e ↔ c.NeedsField s e ∨ c.MisplacesField s e := by
  constructor
  · intro hrun
    by_cases hreduce : ∃ r, stage = .reduce r
    · obtain ⟨r, rfl⟩ := hreduce
      obtain ⟨name, args⟩ := c
      obtain ⟨rfl, hreducer⟩ := eq_of_compile_reduce h
      obtain ⟨hr, hargs⟩ | ⟨reference, path, hcount, rfl, hpath, hr⟩ := reducer_cases hreducer
      · obtain ⟨-, hcount, hrows, rfl⟩ | ⟨field, _, hfield, -⟩ :=
          (State.reduce_eq_error_iff he).1 hrun
        · obtain rfl := hargs.resolve_left hcount
          exact .inl ⟨_, hcount, rfl, hrows, rfl⟩
        · rw [hr] at hfield
          cases hfield
      · obtain ⟨hnone, -⟩ | ⟨field, vs, hfield, rfl, rfl⟩ :=
          (State.reduce_eq_error_iff he).1 hrun
        · rw [hr] at hnone
          cases hnone
        · rw [hr] at hfield
          cases hfield
          exact .inr ⟨_, reference, path, vs, hcount, rfl, hpath, rfl, rfl⟩
    · have hspared : e.blamesCall = false :=
        Stage.sparesCall_run (not_exists.1 hreduce) s e hrun
      rw [he] at hspared
      cases hspared
  · rintro (⟨function, hcount, rfl, hrows, rfl⟩ |
      ⟨function, reference, path, vs, hcount, rfl, hpath, rfl, rfl⟩)
    · rw [compile_reduction, reducer_nil] at h
      cases h
      exact (State.reduce_eq_error_iff he).2 (.inl ⟨rfl, hcount, hrows, rfl⟩)
    · have hfield : field (.reduction function) (.value reference) = .ok path := hpath
      rw [compile_reduction, reducer_singleton hcount, hfield] at h
      cases h
      have hreduce := @State.reduce_eq_error_iff ⟨function, some path⟩ (.values vs) _ he
      exact hreduce.2 (.inr ⟨path, vs, rfl, rfl, rfl⟩)

/-- Once a call is compiled, running its stage finds fault with the call in two cases only, and both
depend on the state: a reduction other than counting has no field and is applied to rows, or has a
field and is applied to bare values. -/
theorem faults_after_compile {c : Call} {stage : Stage} (h : c.compile maxLimit = .ok stage)
    (s : State) :
    (∀ name, stage.run s ≠ .error (.unknownOperator name)) ∧
    (∀ op expected found, stage.run s = .error (.arity op expected found) ↔
      ∃ function, function ≠ .count ∧ c = ⟨function.name, []⟩ ∧ (∃ rows, s.rows? = some rows) ∧
        op = .reduction function ∧ expected = .exactly 1 ∧ found = 0) ∧
    ∀ op fault, stage.run s = .error (.invalidArgument op fault) ↔
      ∃ function reference path vs, function ≠ .count ∧ c = ⟨function.name, [.value reference]⟩ ∧
        Path.ofValue reference = .ok path ∧ s = .values vs ∧
        op = .reduction function ∧ fault = .bareValues path.name := by
  refine ⟨fun name ↦ ?_, fun op expected found ↦ ?_, fun op fault ↦ ?_⟩
  · rw [Ne, run_compiled_eq_error_iff h rfl]
    simp [NeedsField, MisplacesField]
  · rw [run_compiled_eq_error_iff h rfl]
    simp [NeedsField, MisplacesField]
  · rw [run_compiled_eq_error_iff h rfl]
    simp [NeedsField, MisplacesField]

/-- The sum of a field is compiled, and refused where the field has been taken out of its records
already. -/
theorem faults_of_sum_after_values :
    (Call.mk "sum" [.value (.string "hours")]).compile none =
        .ok (.reduce ⟨.sum, some ⟨"hours", [.field "hours"]⟩⟩) ∧
      (Stage.reduce ⟨.sum, some ⟨"hours", [.field "hours"]⟩⟩).run (.values [.integer 8]) =
        .error (.invalidArgument (.reduction .sum) (.bareValues "hours")) := by
  have hcompile : (Call.mk "sum" [.value (.string "hours")]).compile none =
      .ok (.reduce ⟨.sum, some ⟨"hours", [.field "hours"]⟩⟩) := rfl
  obtain ⟨-, -, hargument⟩ := faults_after_compile hcompile (.values [.integer 8])
  exact ⟨hcompile, (hargument _ _).2 ⟨.sum, .string "hours", ⟨"hours", [.field "hours"]⟩,
    [.integer 8], by decide, rfl, rfl, rfl, rfl, rfl⟩⟩

/-- Not all that can be wrong with a call is found by compiling it: a sum without a field is
compiled, and refused where there are records. -/
theorem compiled_not_faultless :
    ¬ ∀ (maxLimit : Option Nat) (c : Call) (stage : Stage) (s : State),
      c.compile maxLimit = .ok stage →
        (∀ name, stage.run s ≠ .error (.unknownOperator name)) ∧
        (∀ op expected found, stage.run s ≠ .error (.arity op expected found)) ∧
        ∀ op fault, stage.run s ≠ .error (.invalidArgument op fault) := by
  intro h
  obtain ⟨-, harity, -⟩ := h none ⟨"sum", []⟩ (.reduce ⟨.sum, none⟩)
    (.records [[("hours", .integer 8)]]) rfl
  exact harity (.reduction .sum) (.exactly 1) 0 rfl

end Call

end ResourceQuery
