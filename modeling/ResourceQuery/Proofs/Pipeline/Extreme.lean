import ResourceQuery.Proofs.Pipeline.Rows
import ResourceQuery.Proofs.Pipeline.SortResult

/-!
The least and the greatest value of a field. A reduction looks at the values from the first one on
and changes its mind only for a value that surpasses the best one so far; a sort puts all rows in
order and takes the first. Both come to the same value, and among equal values that differ in kind
to that of the earliest row.
-/

set_option autoImplicit false

namespace ResourceQuery

open ResourceQuery.Sort (Foremost NotAfter Sortable StablySorted)

namespace Reduce

variable {function : Reduction} {wanted : Ordering} {direction : Direction} {v best : Value}
  {before after : List Value}

/-- The best value stays if none of the rest surpasses it. -/
theorem extremeFrom_of_forall (h : ∀ w ∈ after, ∃ o, w.compare? best = some o ∧ o ≠ wanted) :
    extremeFrom function wanted best after = .ok best := by
  induction after with
  | nil => rfl
  | cons w rest ih =>
    rw [List.forall_mem_cons] at h
    obtain ⟨o, hcompare, hne⟩ := h.1
    simp only [extremeFrom, hcompare, if_neg hne]
    exact ih h.2

/-- A value that surpasses all before it, and that none behind it surpasses, is found whichever of
the former was the best one so far. -/
theorem extremeFrom_append
    (hcomparable : (best :: before).Pairwise fun x y ↦ x.compare? y ≠ none)
    (hbefore : ∀ w ∈ best :: before, v.compare? w = some wanted)
    (hafter : ∀ w ∈ after, ∃ o, w.compare? v = some o ∧ o ≠ wanted) :
    extremeFrom function wanted best (before ++ v :: after) = .ok v := by
  induction before generalizing best with
  | nil =>
    simp only [List.nil_append, extremeFrom, hbefore best List.mem_cons_self, if_true]
    exact extremeFrom_of_forall hafter
  | cons w rest ih =>
    have hne : w.compare? best ≠ none := by
      rw [Value.compare?_swap best w, ne_eq, Option.map_eq_none_iff]
      exact (List.pairwise_cons.1 hcomparable).1 w List.mem_cons_self
    obtain ⟨o, ho⟩ := Option.ne_none_iff_exists'.1 hne
    have hnext : ((if o = wanted then w else best) :: rest).Sublist (best :: w :: rest) := by
      split
      · exact (List.Sublist.refl _).cons best
      · exact ((List.Sublist.refl rest).cons w).cons_cons best
    simp only [List.cons_append, extremeFrom, ho]
    exact ih (hcomparable.sublist hnext) fun u hu ↦ hbefore u (hnext.subset hu)

theorem extreme_of_foremost
    (hcomparable : (before ++ v :: after).Pairwise fun x y ↦ x.compare? y ≠ none)
    (h : Foremost (fun x y ↦ (x.compare? y).map direction.apply) before v after) :
    extreme function (direction.apply .lt) (before ++ v :: after) = .ok v := by
  have hbefore : ∀ w ∈ before, v.compare? w = some (direction.apply .lt) := by
    intro w hw
    obtain ⟨o, ho, hlt⟩ := Option.map_eq_some_iff.1 (h.less w hw)
    rw [ho, Direction.apply_eq_iff.1 hlt]
  have hafter : ∀ w ∈ after, ∃ o, w.compare? v = some o ∧ o ≠ direction.apply .lt := by
    intro w hw
    obtain ⟨_, hanswer, hne⟩ := Sort.notAfter_iff.1 (h.notAfter w hw)
    obtain ⟨o, ho, rfl⟩ := Option.map_eq_some_iff.1 hanswer
    refine ⟨o.swap, by rw [Value.compare?_swap v w, ho]; rfl, fun heq ↦ hne ?_⟩
    rw [← Direction.apply_eq_iff, Sort.apply_swap] at heq
    exact Ordering.swap_eq_lt.1 heq
  cases before with
  | nil => exact extremeFrom_of_forall hafter
  | cons best rest =>
    refine extremeFrom_append (hcomparable.sublist ?_) hbefore hafter
    exact List.sublist_append_left (best :: rest) _

/-- The least value and the greatest one, each with the direction of a sort that puts it first. -/
def extremes : List (Reduction × Direction) :=
  [(.min, .ascending), (.max, .descending)]

theorem apply_of_mem_extremes (h : (function, direction) ∈ extremes) (values : List Value) :
    function.apply values = extreme function (direction.apply .lt) values := by
  simp only [extremes, List.mem_cons, Prod.mk.injEq, List.not_mem_nil, or_false] at h
  obtain ⟨rfl, rfl⟩ | ⟨rfl, rfl⟩ := h <;> rfl

theorem ne_count_of_mem_extremes (h : (function, direction) ∈ extremes) : function ≠ .count := by
  rintro rfl
  simp [extremes] at h

end Reduce

namespace Stage

variable {field : Path} {direction : Direction} {function : Reduction} {r : Record}
  {rows before after : List Record} {column : List Value} {v : Value} {s : State}

/-- The reduction finds the value of the row that is foremost. -/
theorem run_reduce_of_foremost (hchoice : (function, direction) ∈ Reduce.extremes)
    (hrows : s.rows? = some (before ++ r :: after))
    (hcolumn : field.extract (before ++ r :: after) = .ok column)
    (hcomparable : column.Pairwise fun x y ↦ x.compare? y ≠ none)
    (h : Foremost (SortSpec.compare? ⟨field, direction⟩) before r after)
    (hv : field.lookup r = .ok v) :
    (reduce ⟨function, some field⟩).run s = .ok (.scalar v) := by
  have hextreme : Reduce.extreme function (direction.apply .lt) column = .ok v := by
    rw [Path.extract, List.mapM_append] at hcolumn
    obtain ⟨xs, hxs, hrest⟩ := bind_eq_ok_iff.1 hcolumn
    obtain ⟨ys, hys, hcolumn⟩ := bind_eq_ok_iff.1 hrest
    rw [List.mapM_cons, hv, ok_bind] at hys
    obtain ⟨zs, hzs, hys⟩ := bind_eq_ok_iff.1 hys
    cases hys
    cases hcolumn
    refine Reduce.extreme_of_foremost hcomparable ⟨fun x hx ↦ ?_, fun z hz ↦ ?_⟩
    · obtain ⟨s, hs, hlookup⟩ := exists_mem_of_forall₂ (mapM_eq_ok_iff.1 hxs).flip hx
      rw [← h.less s hs, SortSpec.compare?_of_lookup hv hlookup]
    · obtain ⟨s, hs, hlookup⟩ := exists_mem_of_forall₂ (mapM_eq_ok_iff.1 hzs).flip hz
      have hle := h.notAfter s hs
      rwa [SortSpec.compare?_of_lookup hv hlookup] at hle
  have hcount := Reduce.ne_count_of_mem_extremes hchoice
  rw [run, State.reduce_of_rows hrows (iff_of_false (Option.some_ne_none field) hcount),
    State.reduceGroup]
  simp only [hcolumn, ok_bind, Reduce.apply_of_mem_extremes hchoice, hextreme]

/-- The first row of a sort by one field is foremost, and leads to its value. -/
theorem exists_foremost_of_sort (hrows : s.rows? = some rows) (hne : rows ≠ [])
    (hcolumn : field.extract rows = .ok column) (hsortable : Sortable column)
    (direction : Direction) :
    ∃ before r after v, rows = before ++ r :: after ∧
      Foremost (SortSpec.compare? ⟨field, direction⟩) before r after ∧ field.lookup r = .ok v ∧
      runAll [sort [⟨field, direction⟩], first, key field] s = .ok (.scalar v) := by
  let spec : SortSpec := ⟨field, direction⟩
  have hkeys : ∀ key ∈ [spec], ∃ column, key.field.extract rows = .ok column ∧ Sortable column :=
    List.forall_mem_singleton.2 ⟨column, hcolumn, hsortable⟩
  obtain ⟨sorted, hsorted, hstable⟩ := State.stablySorted_sortRows hkeys
  rw [SortSpec.compareRows?_singleton] at hstable
  obtain ⟨r, rest, rfl⟩ : ∃ r rest, sorted = r :: rest :=
    List.exists_cons_of_ne_nil fun hnil ↦ hne (hnil ▸ hstable.perm).nil_eq.symm
  obtain ⟨v, -, hv⟩ := exists_mem_of_forall₂ (mapM_eq_ok_iff.1 hcolumn)
    (hstable.perm.mem_iff.1 List.mem_cons_self)
  obtain ⟨before, after, hsplit, hforemost⟩ :=
    hstable.exists_foremost (SortSpec.consistent_compare? spec)
  refine ⟨before, r, after, v, hsplit, hforemost, hv, ?_⟩
  rw [runAll_cons, run, State.sort_of_rows (List.cons_ne_nil _ _) hrows, hsorted, ok_bind, ok_bind,
    runAll_cons, run, State.first_of_rows (State.rows?_withRows hrows _), ok_bind, runAll_cons,
    run, State.key, hv]
  rfl

/-- The least value of a field is that of the first row of an ascending sort, and the greatest value
that of the first row of a descending one, where all rows have the field and its values can be
sorted. It is the value of the earliest row that is not behind another, so that of equal values of
different kinds both ways take the same. -/
theorem extreme_eq_first_of_sort (hchoice : (function, direction) ∈ Reduce.extremes)
    (hrows : s.rows? = some rows) (hne : rows ≠ []) (hcolumn : field.extract rows = .ok column)
    (hsortable : Sortable column) :
    ∃ before r after v, rows = before ++ r :: after ∧
      Foremost (SortSpec.compare? ⟨field, direction⟩) before r after ∧ field.lookup r = .ok v ∧
      (reduce ⟨function, some field⟩).run s = .ok (.scalar v) ∧
      runAll [sort [⟨field, direction⟩], first, key field] s = .ok (.scalar v) := by
  obtain ⟨before, r, after, v, rfl, hforemost, hv, hsort⟩ :=
    exists_foremost_of_sort hrows hne hcolumn hsortable direction
  exact ⟨before, r, after, v, rfl, hforemost, hv,
    run_reduce_of_foremost hchoice hrows hcolumn hsortable.comparable hforemost hv, hsort⟩

/-- The highest price is two, as an integer and later as a decimal. Both ways give the integer. -/
theorem extreme_eq_first_of_sort_price :
    let price : Path := ⟨"price", [.field "price"]⟩
    let column : List Value :=
      [.decimal (.ofInt64 1), .integer 2, .decimal (.ofInt64 2), .integer 1]
    let rows : List Record := column.map fun v ↦ [("price", v)]
    (Reduction.max, Direction.descending) ∈ Reduce.extremes ∧
      (State.records rows).rows? = some rows ∧ rows ≠ [] ∧ price.extract rows = .ok column ∧
      Sortable column ∧ ∃ before r after v, rows = before ++ r :: after ∧
        Foremost (SortSpec.compare? ⟨price, .descending⟩) before r after ∧
        price.lookup r = .ok v ∧ (reduce ⟨.max, some price⟩).run (.records rows) = .ok (.scalar v) ∧
        runAll [sort [⟨price, .descending⟩], first, key price] (.records rows) = .ok (.scalar v) ∧
        v = .integer 2 := by
  intro price column rows
  have hchoice : (Reduction.max, Direction.descending) ∈ Reduce.extremes := by decide
  have hrows : (State.records rows).rows? = some rows := rfl
  have hne : rows ≠ [] := List.cons_ne_nil _ _
  have hcolumn : price.extract rows = .ok column := rfl
  have hsortable : Sortable column := ⟨by decide +kernel, by decide +kernel⟩
  obtain ⟨before, r, after, v, hsplit, hforemost, hv, hreduce, hsort⟩ :=
    extreme_eq_first_of_sort hchoice hrows hne hcolumn hsortable
  have hresult : (reduce ⟨.max, some price⟩).run (.records rows) = .ok (.scalar (.integer 2)) := rfl
  refine ⟨hchoice, hrows, hne, hcolumn, hsortable, before, r, after, v, hsplit, hforemost, hv,
    hreduce, hsort, ?_⟩
  rw [hreduce] at hresult
  cases hresult
  rfl

end Stage

end ResourceQuery
