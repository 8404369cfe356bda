import Mathlib.Data.List.Perm.Subperm
import ResourceQuery.Proofs.Pipeline.Run

/-!
Stages that only choose rows. A filter, a limit, a slice and the removal of duplicates leave some of
the rows in their order, and a sort leaves all of them in another order. So a pipeline of such
stages, however long, gives rows that were there before, none of them changed and none more often
than before, and in the order of the records unless it sorts.
-/

set_option autoImplicit false

namespace ResourceQuery.Sort

variable {α : Type} {directions : List Direction}

theorem insert_perm {x : Keyed α} {sorted result : List (Keyed α)}
    (h : insert directions x sorted = .ok result) : result.Perm (x :: sorted) := by
  induction sorted generalizing result with
  | nil =>
    cases h
    exact .refl _
  | cons y rest ih =>
    rw [insert, bind_eq_ok_iff] at h
    obtain ⟨order, -, h⟩ := h
    split at h
    · obtain ⟨inserted, hinserted, h⟩ := bind_eq_ok_iff.1 h
      cases h
      exact ((ih hinserted).cons y).trans (.swap x y rest)
    · cases h
      exact .refl _

theorem insertAll_perm {sorted rest result : List (Keyed α)}
    (h : insertAll directions sorted rest = .ok result) : result.Perm (sorted ++ rest) := by
  induction rest generalizing sorted with
  | nil =>
    cases h
    rw [List.append_nil]
  | cons x rest ih =>
    rw [insertAll, bind_eq_ok_iff] at h
    obtain ⟨inserted, hinserted, h⟩ := h
    have hmoved : (inserted ++ rest).Perm (x :: sorted ++ rest) :=
      (insert_perm hinserted).append_right rest
    exact (ih h).trans (hmoved.trans List.perm_middle.symm)

/-- Sorting gives the elements that it is given. -/
theorem byKeys_perm {elements : List (Keyed α)} {result : List α}
    (h : byKeys directions elements = .ok result) : result.Perm (elements.map Prod.snd) := by
  rw [byKeys, bind_eq_ok_iff] at h
  obtain ⟨sorted, hsorted, h⟩ := h
  cases h
  exact ((List.reverse_perm sorted).trans (insertAll_perm hsorted)).map Prod.snd

end ResourceQuery.Sort

namespace ResourceQuery

theorem Predicate.keep_sublist {p : Predicate} {rows kept : List Record}
    (h : p.keep rows = .ok kept) : kept.Sublist rows := by
  induction rows generalizing kept with
  | nil =>
    cases h
    exact .slnil
  | cons r rest ih =>
    rw [keep, bind_eq_ok_iff] at h
    obtain ⟨holds, -, h⟩ := h
    cases holds with
    | true =>
      obtain ⟨more, hmore, h⟩ := bind_eq_ok_iff.1 h
      cases h
      exact (ih hmore).cons_cons r
    | false => exact (ih h).cons r

namespace State

variable {α : Type}

theorem limited_sublist (count : Option Nat) (start : Nat) (elements : List α) :
    (limited count start elements).Sublist elements := by
  cases count with
  | some count => exact (List.take_sublist count _).trans (List.drop_sublist start elements)
  | none => exact List.drop_sublist start elements

theorem everyNth_sublist (step : Nat) (elements : List α) :
    (everyNth step elements).Sublist elements := by
  fun_induction everyNth step elements with
  | case1 => exact .slnil
  | case2 x rest ih => exact (ih.trans (List.drop_sublist (step - 1) rest)).cons_cons x

theorem sliced_sublist (start stop : Option Int64) (step : Nat) (elements : List α) :
    (sliced start stop step elements).Sublist elements :=
  (everyNth_sublist step _).trans ((List.drop_sublist _ _).trans (List.take_sublist _ elements))

theorem distinctBy_sublist (equal : α → α → Bool) (kept elements : List α) :
    (distinctBy equal kept elements).Sublist elements := by
  induction elements generalizing kept with
  | nil => exact .slnil
  | cons x rest ih =>
    rw [distinctBy]
    split
    · exact (ih kept).cons x
    · exact (ih (x :: kept)).cons_cons x

/-- What the keys of a sort lead to in a row. -/
def keysOf (keys : List SortSpec) (r : Record) : Except EvalError (List Value) :=
  keys.mapM (·.field.lookup r)

/-- Rows are sorted as they are, each with its keys. -/
theorem keyed_of_mapM {keys : List SortSpec} {rows : List Record} {keyed : List (Sort.Keyed Record)}
    (h : rows.mapM (fun r ↦ do return (← keysOf keys r, r)) = .ok keyed) :
    keyed.map Prod.snd = rows ∧ ∀ pair ∈ keyed, keysOf keys pair.2 = .ok pair.1 := by
  have hpairs : List.Forall₂ (fun r pair ↦ r = pair.2 ∧ keysOf keys r = .ok pair.1) rows keyed := by
    refine (mapM_eq_ok_iff.1 h).imp fun r pair hpair ↦ ?_
    obtain ⟨found, hfound, hpair⟩ := bind_eq_ok_iff.1 hpair
    cases hpair
    exact ⟨rfl, hfound⟩
  constructor
  · refine Eq.symm ?_
    rw [← List.forall₂_eq_eq_eq, List.forall₂_map_right_iff]
    exact hpairs.imp fun _ _ hpair ↦ hpair.1
  · intro pair hpair
    obtain ⟨r, -, rfl, hfound⟩ := exists_mem_of_forall₂ hpairs.flip hpair
    exact hfound

theorem sortRows_perm {keys : List SortSpec} {rows sorted : List Record}
    (h : sortRows keys rows = .ok sorted) : sorted.Perm rows := by
  rw [sortRows, bind_eq_ok_iff] at h
  obtain ⟨keyed, hkeyed, h⟩ := h
  exact (keyed_of_mapM hkeyed).1 ▸ Sort.byKeys_perm h

end State

namespace Stage

/-- The stages that leave each row as it is and add none. -/
def choosesRows : Stage → Bool
  | .filter _ | .sort _ | .limit _ _ | .slice _ _ _ | .distinct => true
  | _ => false

/-- What is kept of rows: each at most as often as it was there, and in the old order unless the
rows were `sorted`. -/
structure Chosen (sorted : Prop) (rows kept : List Record) : Prop where
  subperm : kept.Subperm rows
  sublist : ¬ sorted → kept.Sublist rows

theorem Chosen.of_sublist {sorted : Prop} {rows kept : List Record} (h : kept.Sublist rows) :
    Chosen sorted rows kept :=
  ⟨h.subperm, fun _ ↦ h⟩

theorem Chosen.trans {sorted later : Prop} {rows kept most : List Record}
    (h : Chosen sorted rows most) (h' : Chosen later most kept) :
    Chosen (sorted ∨ later) rows kept where
  subperm := h'.subperm.trans h.subperm
  sublist hnot := (h'.sublist fun hlater ↦ hnot (.inr hlater)).trans
    (h.sublist fun hsorted ↦ hnot (.inl hsorted))

variable {rows : List Record} {s : State}

/-- A stage that chooses rows gives records again. -/
theorem exists_chosen_of_run {stage : Stage} (hstage : stage.choosesRows = true)
    (h : stage.run (.records rows) = .ok s) :
    ∃ kept, s = .records kept ∧ Chosen (∃ keys, stage = .sort keys) rows kept := by
  cases stage with
  | filter p =>
    obtain ⟨kept, hkept, h⟩ := bind_eq_ok_iff.1 h
    cases h
    exact ⟨kept, rfl, .of_sublist (Predicate.keep_sublist hkept)⟩
  | sort keys =>
    rw [run, State.sort] at h
    split at h
    · cases h
    · obtain ⟨kept, hkept, h⟩ := bind_eq_ok_iff.1 h
      cases h
      exact ⟨kept, rfl, (State.sortRows_perm hkept).subperm, fun hnot ↦ absurd ⟨keys, rfl⟩ hnot⟩
  | limit count start =>
    cases h
    exact ⟨_, rfl, .of_sublist (State.limited_sublist count start rows)⟩
  | slice start stop step =>
    cases h
    exact ⟨_, rfl, .of_sublist (State.sliced_sublist start stop step rows)⟩
  | distinct =>
    cases h
    exact ⟨_, rfl, .of_sublist (State.distinctBy_sublist _ _ rows)⟩
  | _ => cases hstage

theorem exists_chosen_of_runAll {stages : List Stage}
    (hstages : ∀ stage ∈ stages, stage.choosesRows = true)
    (h : runAll stages (.records rows) = .ok s) :
    ∃ kept, s = .records kept ∧ Chosen (∃ keys, .sort keys ∈ stages) rows kept := by
  induction stages generalizing rows with
  | nil =>
    cases h
    exact ⟨rows, rfl, .of_sublist (.refl rows)⟩
  | cons stage stages ih =>
    rw [List.forall_mem_cons] at hstages
    rw [runAll_cons, bind_eq_ok_iff] at h
    obtain ⟨next, hnext, h⟩ := h
    obtain ⟨most, rfl, hmost⟩ := exists_chosen_of_run hstages.1 hnext
    obtain ⟨kept, rfl, hkept⟩ := ih hstages.2 h
    refine ⟨kept, rfl, ?_⟩
    simpa [exists_or, eq_comm] using hmost.trans hkept

end Stage

namespace Query

variable {q : Query} {s : State}

theorem exists_sublist_of_applyDefaultLimit {rows : List Record}
    (h : q.applyDefaultLimit (.records rows) = .ok s) :
    ∃ kept, s = .records kept ∧ kept.Sublist rows := by
  rw [applyDefaultLimit] at h
  split at h
  · split at h
    · obtain ⟨kept, rfl, hkept⟩ := Stage.exists_chosen_of_run rfl h
      exact ⟨kept, rfl, hkept.sublist (by simp)⟩
    · cases h
      exact ⟨rows, rfl, .refl rows⟩
  · cases h
    exact ⟨rows, rfl, .refl rows⟩

/-- A query whose stages only filter, sort, cut and drop duplicates gives records, all of them rows
that it was asked about, each at most as often as there, and in their order where it does not sort.
-/
theorem result_chooses_rows (hstages : ∀ stage ∈ q.pipeline, stage.choosesRows = true)
    (h : q.result = .ok s) :
    ∃ kept, s = .records kept ∧ kept.Subperm q.records ∧
      ((∀ keys, .sort keys ∉ q.pipeline) → kept.Sublist q.records) := by
  rw [result, bind_eq_ok_iff] at h
  obtain ⟨reached, hreached, h⟩ := h
  obtain ⟨most, rfl, hmost⟩ := Stage.exists_chosen_of_runAll hstages (runFrom_eq_ok_iff.1 hreached)
  obtain ⟨kept, rfl, hkept⟩ := exists_sublist_of_applyDefaultLimit h
  refine ⟨kept, rfl, hkept.subperm.trans hmost.subperm, fun hfree ↦ hkept.trans ?_⟩
  exact hmost.sublist (not_exists.2 hfree)

/-- Of two equal rows one is dropped, the rest is sorted from the oldest on and cut. -/
theorem result_of_oldest :
    let q : Query :=
      { records := [[("age", .integer 30)], [("age", .integer 30)], [("age", .integer 41)],
          [("age", .integer 52)]]
        options := { defaultLimit := some 2 }
        pipeline := [.distinct, .sort [⟨⟨"age", [.field "age"]⟩, .descending⟩]] }
    let kept : List Record := [[("age", .integer 52)], [("age", .integer 41)]]
    (∀ stage ∈ q.pipeline, stage.choosesRows = true) ∧ q.result = .ok (.records kept) ∧
      ∃ rows, State.records kept = .records rows ∧ rows.Subperm q.records ∧
        ((∀ keys, .sort keys ∉ q.pipeline) → rows.Sublist q.records) := by
  intro q kept
  have hstages : ∀ stage ∈ q.pipeline, stage.choosesRows = true := by
    decide
  have hresult : q.result = .ok (.records kept) := rfl
  exact ⟨hstages, hresult, result_chooses_rows hstages hresult⟩

end Query

end ResourceQuery
