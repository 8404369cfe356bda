import Mathlib.Data.List.Sort
import ResourceQuery.Pipeline.Compile
import ResourceQuery.Proofs.Pipeline.Assignment
import ResourceQuery.Proofs.Pipeline.RowSelection
import ResourceQuery.Proofs.Pipeline.Sequences

/-!
Limits, slices and indices. Each of them picks elements by where they stand and not by what they
are, so that it is known by the positions that it picks of a list of positions. Once these are
known, that the three of them agree is arithmetic of bounds.
-/

set_option autoImplicit false

namespace ResourceQuery

namespace State

section Positions

variable {α β : Type} {xs : List α} {p q : Nat → Prop} [DecidablePred p] [DecidablePred q]

/-- The elements at the positions that have a property, in their order. -/
def elementsAt (xs : List α) (p : Nat → Prop) [DecidablePred p] : List α :=
  ((List.range xs.length).filter (p ·)).filterMap (xs[·]?)

theorem elementsAt_congr (h : ∀ i < xs.length, p i ↔ q i) : elementsAt xs p = elementsAt xs q := by
  rw [elementsAt, elementsAt]
  congr 1
  refine List.filter_congr fun i hi ↦ ?_
  rw [decide_eq_decide]
  exact h i (List.mem_range.1 hi)

theorem elementsAt_eq_nil (h : ∀ i < xs.length, ¬ p i) : elementsAt xs p = [] := by
  have hnone : (List.range xs.length).filter (p ·) = [] := by
    simpa [List.filter_eq_nil_iff] using h
  rw [elementsAt, hnone, List.filterMap_nil]

theorem elementsAt_eq_singleton {i : Nat} {x : α} (hx : xs[i]? = some x)
    (h : ∀ j < xs.length, p j ↔ j = i) : elementsAt xs p = [x] := by
  obtain ⟨hi, -⟩ := List.getElem?_eq_some_iff.1 hx
  have hone : (List.range xs.length).filter (p ·) = [i] := by
    refine (List.pairwise_lt_range.filter _).eq_of_mem_iff (List.pairwise_singleton _ i) fun j ↦ ?_
    rw [List.mem_filter, List.mem_range, decide_eq_true_eq, List.mem_singleton]
    exact ⟨fun hj ↦ (h j hj.1).1 hj.2, fun hj ↦ hj ▸ ⟨hi, (h i hi).2 rfl⟩⟩
  rw [elementsAt, hone, List.filterMap_cons_some hx, List.filterMap_nil]

/-- A change that does not look at the elements is known by what it picks of the positions. -/
theorem eq_elementsAt {change : {α : Type} → List α → List α}
    (hmap : ∀ {α β : Type} (f : α → β) (xs : List α), change (xs.map f) = (change xs).map f)
    (hsublist : (change (List.range xs.length)).Sublist (List.range xs.length))
    (hmem : ∀ i < xs.length, i ∈ change (List.range xs.length) ↔ p i) :
    change xs = elementsAt xs p := by
  have hpicked : change (List.range xs.length) = (List.range xs.length).filter (p ·) := by
    refine (List.pairwise_lt_range.sublist hsublist).eq_of_mem_iff
      (List.pairwise_lt_range.filter _) fun i ↦ ?_
    rw [List.mem_filter, decide_eq_true_eq]
    constructor
    · exact fun hi ↦ ⟨hsublist.mem hi, (hmem i (List.mem_range.1 (hsublist.mem hi))).1 hi⟩
    · exact fun hi ↦ (hmem i (List.mem_range.1 hi.1)).2 hi.2
  -- the list is read off its positions, so that what is picked of them is picked of it
  have hread : xs.map some = (List.range xs.length).map (xs[·]?) := by
    refine List.ext_getElem (by simp) fun i hi _ ↦ ?_
    rw [List.length_map] at hi
    simp [hi]
  calc change xs = ((change xs).map some).filterMap id := by simp
    _ = ((change (List.range xs.length)).map (xs[·]?)).filterMap id := by rw [← hmap, hread, hmap]
    _ = elementsAt xs p := by rw [hpicked, elementsAt, List.filterMap_map]; rfl

theorem limited_map (count : Option Nat) (start : Nat) (f : α → β) (xs : List α) :
    limited count start (xs.map f) = (limited count start xs).map f := by
  cases count <;> simp [limited, List.map_drop, List.map_take]

theorem everyNth_map (step : Nat) (f : α → β) (xs : List α) :
    everyNth step (xs.map f) = (everyNth step xs).map f := by
  fun_induction everyNth step xs with
  | case1 => rw [List.map_nil, everyNth]
  | case2 x rest ih => rw [List.map_cons, everyNth, ← List.map_drop, ih, List.map_cons]

theorem sliced_map (start stop : Option Int64) (step : Nat) (f : α → β) (xs : List α) :
    sliced start stop step (xs.map f) = (sliced start stop step xs).map f := by
  simp only [sliced, List.length_map, ← List.map_take, ← List.map_drop, everyNth_map]

theorem getElem?_everyNth {step : Nat} (hstep : 0 < step) (xs : List α) (i : Nat) :
    (everyNth step xs)[i]? = xs[i * step]? := by
  fun_induction everyNth step xs generalizing i with
  | case1 => rw [List.getElem?_nil, List.getElem?_nil]
  | case2 x rest ih =>
    cases i with
    | zero => rw [Nat.zero_mul, List.getElem?_cons_zero, List.getElem?_cons_zero]
    | succ i =>
      have hshift : (i + 1) * step = step - 1 + i * step + 1 := by
        rw [Nat.add_mul]
        omega
      rw [List.getElem?_cons_succ, ih, List.getElem?_drop, hshift, List.getElem?_cons_succ]

theorem getElem?_range_eq_some_iff {n i k : Nat} :
    (List.range n)[k]? = some i ↔ k < n ∧ k = i := by
  simp [List.getElem?_eq_some_iff]

/-- A limit picks as many positions as it counts, from its start on. -/
theorem limited_eq_elementsAt (count : Option Nat) (start : Nat) (xs : List α) :
    limited count start xs =
      elementsAt xs fun i ↦ start ≤ i ∧ i < start + count.getD xs.length := by
  refine eq_elementsAt (limited_map count start) (limited_sublist count start _) fun i hi ↦ ?_
  rw [List.mem_iff_getElem?]
  cases count with
  | none =>
    simp only [limited, List.getElem?_drop, getElem?_range_eq_some_iff, Option.getD_none]
    constructor
    · rintro ⟨k, -, rfl⟩
      omega
    · exact fun h ↦ ⟨i - start, by omega⟩
  | some count =>
    simp only [limited, List.getElem?_take, Option.ite_none_right_eq_some, List.getElem?_drop,
      getElem?_range_eq_some_iff, Option.getD_some]
    constructor
    · rintro ⟨k, hk, -, rfl⟩
      omega
    · exact fun h ↦ ⟨i - start, by omega⟩

/-- The position that a bound of a slice means in a sequence: a negative bound is counted from the
end, and none leaves the sequence. -/
def boundary (length : Nat) (bound : Option Int64) (missing : Int) : Int :=
  match bound with
  | none => missing
  | some b => if b.toInt < 0 then max 0 (length + b.toInt) else min b.toInt length

theorem clamp_eq_boundary (length : Nat) (bound : Option Int64) (missing : Nat) :
    (((bound.map (clamp length)).getD missing : Nat) : Int) = boundary length bound missing := by
  cases bound with
  | none => rfl
  | some b =>
    simp only [Option.map_some, Option.getD_some, clamp, boundary]
    split <;> omega

/-- A slice picks every so many positions, from its start on and before its end. -/
theorem sliced_eq_elementsAt (start stop : Option Int64) {step : Nat} (hstep : 0 < step)
    (xs : List α) :
    sliced start stop step xs =
      elementsAt xs fun i ↦ boundary xs.length start 0 ≤ i ∧ i < boundary xs.length stop xs.length ∧
        (step : Int) ∣ i - boundary xs.length start 0 := by
  refine eq_elementsAt (sliced_map start stop step) (sliced_sublist start stop step _) fun i hi ↦ ?_
  rw [← clamp_eq_boundary, ← Int.ofNat_zero, ← clamp_eq_boundary, List.mem_iff_getElem?, sliced,
    List.length_range]
  generalize (start.map (clamp xs.length)).getD 0 = first
  generalize (stop.map (clamp xs.length)).getD xs.length = last
  simp only [getElem?_everyNth hstep, List.getElem?_drop, List.getElem?_take,
    Option.ite_none_right_eq_some, getElem?_range_eq_some_iff]
  constructor
  · rintro ⟨k, hlast, -, rfl⟩
    refine ⟨by omega, by omega, k, ?_⟩
    rw [Int.natCast_add, Int.natCast_mul, Int.mul_comm, Int.add_comm, Int.add_sub_cancel]
  · rintro ⟨hfirst, hlast, hstride⟩
    rw [← Int.natCast_sub (Int.ofNat_le.1 hfirst), Int.natCast_dvd_natCast] at hstride
    obtain ⟨k, hk⟩ := hstride
    have hposition : first + k * step = i := by
      rw [Nat.mul_comm, ← hk]
      omega
    exact ⟨k, by omega, by omega, hposition⟩

theorem sliced_one_eq_elementsAt (start stop : Option Int64) (xs : List α) :
    sliced start stop 1 xs = elementsAt xs fun i ↦
      boundary xs.length start 0 ≤ i ∧ i < boundary xs.length stop xs.length := by
  rw [sliced_eq_elementsAt start stop Nat.one_pos]
  exact elementsAt_congr fun i _ ↦ by simp

/-- A limit is the slice from its start that ends where it has counted to, or nowhere. -/
theorem limited_eq_sliced {count : Option Nat} {start : Nat} {first : Int64} {last : Option Int64}
    (hfirst : first.toInt = start)
    (hlast : last.map Int64.toInt = count.map fun c : Nat ↦ (start + c : Int)) (xs : List α) :
    limited count start xs = sliced (some first) last 1 xs := by
  rw [limited_eq_elementsAt, sliced_one_eq_elementsAt]
  refine elementsAt_congr fun i hi ↦ ?_
  cases count with
  | none =>
    obtain rfl := Option.map_eq_none_iff.1 hlast
    simp only [boundary, hfirst, Option.getD_none]
    omega
  | some count =>
    obtain ⟨last, rfl, hend⟩ := Option.map_eq_some_iff.1 hlast
    simp only [boundary, hfirst, hend, Option.getD_some]
    omega

end Positions

/-- The end of the slice that begins at `n` and has one element. Behind the last element, which is
the one at -1, there is no bound to be named. -/
def nextBound (n : Int64) : Option Int64 :=
  if n = -1 then none else some (n + 1)

theorem toInt_add_one {n : Int64} (h : n < Int64.maxValue) : (n + 1).toInt = n.toInt + 1 := by
  have hlt : n.toInt < Int64.maxValue.toInt := Int64.lt_iff_toInt_lt.1 h
  have hmax : Int64.maxValue.toInt = 2 ^ 63 - 1 := rfl
  have hmin := Int64.le_toInt n
  have hone : (1 : Int64).toInt = 1 := rfl
  rw [Int64.toInt_add, hone]
  exact Int.bmod_eq_of_le (by omega) (by omega)

/-- The slice of one element picks the position that the index means. -/
theorem picked_iff_resolveIndex {n : Int64} (h : n < Int64.maxValue) {length i : Nat}
    (hi : i < length) :
    boundary length (some n) 0 ≤ i ∧ i < boundary length (nextBound n) length ↔
      resolveIndex n length = some i := by
  have hlast : n = -1 ↔ n.toInt = -1 := Int64.toInt_inj.symm
  have hresolve : resolveIndex n length = some i ↔
      (i : Int) = if n.toInt < 0 then length + n.toInt else n.toInt := by
    rw [resolveIndex]
    split <;> split <;> simp only [Option.some.injEq, reduceCtorEq, false_iff] <;> omega
  rw [hresolve, nextBound]
  -- behind the position -1 comes the end of the sequence and not its start
  split
  · next hn =>
    rw [hlast] at hn
    simp only [boundary]
    omega
  · next hn =>
    rw [hlast] at hn
    simp only [boundary, toInt_add_one h]
    omega

/-- The slice of one element holds the item that the index means, if there is one. -/
theorem sliced_eq_itemAt? {n : Int64} (h : n < Int64.maxValue) (xs : List Value) :
    sliced (some n) (nextBound n) 1 xs = ((Path.itemAt? n xs).map Prod.snd).toList := by
  rw [sliced_one_eq_elementsAt]
  cases hitem : Path.itemAt? n xs with
  | none =>
    refine elementsAt_eq_nil fun i hi hpicked ↦ ?_
    have hx : xs[i]? = some xs[i] := List.getElem?_eq_getElem hi
    have hfound := Path.itemAt?_eq_some_iff.2 ⟨(picked_iff_resolveIndex h hi).1 hpicked, hx⟩
    rw [hitem] at hfound
    cases hfound
  | some found =>
    obtain ⟨i, x⟩ := found
    obtain ⟨hi, hx⟩ := Path.itemAt?_eq_some_iff.1 hitem
    refine elementsAt_eq_singleton hx fun j hj ↦ ?_
    rw [picked_iff_resolveIndex h hj, hi, Option.some.injEq, eq_comm]

variable {s : State} {xs : List Value}

theorem exists_rebuilt_of_slice (h : s.items? = some xs) (start stop : Option Int64) (step : Nat) :
    ∃ t, (Stage.slice start stop step).run s = .ok t ∧
      s.Rebuilt (sliced start stop step xs) t :=
  exists_rebuilt_of_reorder (sliced_map start stop step) h .slice

theorem exists_limit_slice (h : s.items? = some xs) {count : Option Nat} {start : Nat}
    {first : Int64} {last : Option Int64} (hfirst : first.toInt = start)
    (hlast : last.map Int64.toInt = count.map fun c : Nat ↦ (start + c : Int)) :
    ∃ t, (Stage.limit count start).run s = .ok t ∧
      (Stage.slice (some first) last 1).run s = .ok t := by
  obtain ⟨t, ht, hlimit⟩ := exists_rebuilt_of_reorder (limited_map count start) h .limit
  obtain ⟨u, hu, hslice⟩ := exists_rebuilt_of_slice h (some first) last 1
  rw [limited_eq_sliced hfirst hlast] at hlimit
  obtain rfl := hlimit.unique hslice
  exact ⟨t, ht, hu⟩

theorem index_of_items? (h : s.items? = some xs) (n : Int64) :
    s.index n = match Path.itemAt? n xs with
      | some (_, x) => .ok (.scalar x)
      | none => .error (.indexOutOfRange n xs.length) := by
  rw [index, items_of_items? h, ok_bind]
  cases Path.itemAt? n xs <;> rfl

end State

namespace Stage

open State (boundary elementsAt nextBound)

variable {s : State} {xs : List Value}

/-- A slice of a sequence gives the elements at every so many positions from its start on and before
its end, in their order, as a sequence of the same kind. A bound that is given alone is the end. -/
theorem slice_positions (h : s.items? = some xs) (start stop : Option Int64) {step : Nat}
    (hstep : 0 < step) :
    (∃ t, (slice start stop step).run s = .ok t ∧
      s.Rebuilt (elementsAt xs fun i ↦
        boundary xs.length start 0 ≤ i ∧ i < boundary xs.length stop xs.length ∧
          (step : Int) ∣ i - boundary xs.length start 0) t) ∧
      ∀ maxLimit, Call.compile maxLimit ⟨"slice", [.value (stop.elim .null .integer)]⟩ =
        .ok (slice none stop 1) := by
  obtain ⟨t, ht, hrebuilt⟩ := State.exists_rebuilt_of_slice h start stop step
  rw [State.sliced_eq_elementsAt start stop hstep] at hrebuilt
  refine ⟨⟨t, ht, hrebuilt⟩, fun maxLimit ↦ ?_⟩
  cases stop <;> rfl

/-- Every second element but the last one, from as far in front of the sequence as can be named. -/
theorem slice_positions_of_numbers :
    let xs : List Value := [.integer 0, .integer 1, .integer 2, .integer 3, .integer 4, .integer 5]
    let s := State.values xs
    s.items? = some xs ∧ 0 < 2 ∧
      (∃ t, (slice (some Int64.minValue) (some (-1)) 2).run s = .ok t ∧
        s.Rebuilt [.integer 0, .integer 2, .integer 4] t) ∧
      Call.compile none ⟨"slice", [.value (.integer (-1))]⟩ = .ok (slice none (some (-1)) 1) := by
  intro xs s
  have hitems : s.items? = some xs := rfl
  have hstep : 0 < 2 := by decide
  obtain ⟨hslice, hcompile⟩ :=
    slice_positions hitems (some Int64.minValue) (some (-1)) hstep
  exact ⟨hitems, hstep, hslice, hcompile none⟩

/-- A limit gives what the slice of the same positions gives. An index gives the only element of the
slice that begins there and has one element, and is out of range if there is none in it. -/
theorem limit_and_index_agree_with_slice (h : s.items? = some xs) :
    (∀ (count start : Nat) (first last : Int64), first.toInt = start →
      last.toInt = start + count → ∃ t, (limit (some count) start).run s = .ok t ∧
        (slice (some first) (some last) 1).run s = .ok t) ∧
    (∀ (start : Nat) (first : Int64), first.toInt = start →
      ∃ t, (limit none start).run s = .ok t ∧ (slice (some first) none 1).run s = .ok t) ∧
    ∀ n : Int64, n < Int64.maxValue →
      ∃ t found, (slice (some n) (nextBound n) 1).run s = .ok t ∧ s.Rebuilt found t ∧
        (∀ u, (index n).run s = .ok u ↔ ∃ x, found = [x] ∧ u = .scalar x) ∧
        ∀ e, (index n).run s = .error e ↔ found = [] ∧ e = .indexOutOfRange n xs.length := by
  refine ⟨fun count start first last hfirst hlast ↦ ?_, fun start first hfirst ↦ ?_, fun n hn ↦ ?_⟩
  · exact State.exists_limit_slice h hfirst (congrArg some hlast)
  · exact State.exists_limit_slice h hfirst rfl
  · obtain ⟨t, ht, hslice⟩ := State.exists_rebuilt_of_slice h (some n) (nextBound n) 1
    refine ⟨t, _, ht, hslice, ?_⟩
    rw [State.sliced_eq_itemAt? hn, run, State.index_of_items? h]
    cases Path.itemAt? n xs with
    | none => simp [eq_comm]
    | some found => simp [eq_comm]

/-- Of two rows, a limit behind the first one counts no more than the second, which is also the last
one; there is none in front of the first. -/
theorem limit_and_index_agree_with_slice_of_people :
    let young : Record := [("age", .integer 30)]
    let old : Record := [("age", .integer 41)]
    let s := State.records [young, old]
    s.items? = some [.object young, .object old] ∧ Int64.toInt 1 = (1 : Nat) ∧
      Int64.toInt 6 = (1 : Nat) + (5 : Nat) ∧ -1 < Int64.maxValue ∧ -3 < Int64.maxValue ∧
      (limit (some 5) 1).run s = .ok (.records [old]) ∧
      (slice (some 1) (some 6) 1).run s = .ok (.records [old]) ∧
      (slice (some 1) none 1).run s = .ok (.records [old]) ∧
      (slice (some (-1)) none 1).run s = .ok (.records [old]) ∧
      (index (-1)).run s = .ok (.scalar (.object old)) ∧
      (slice (some (-3)) (some (-2)) 1).run s = .ok (.records []) ∧
      (index (-3)).run s = .error (.indexOutOfRange (-3) 2) := by
  intro young old s
  have hitems : s.items? = some [.object young, .object old] := rfl
  have hfirst : Int64.toInt 1 = (1 : Nat) := rfl
  have hlast : Int64.toInt 6 = (1 : Nat) + (5 : Nat) := rfl
  have hlt : -1 < Int64.maxValue := by decide
  have hlt' : -3 < Int64.maxValue := by decide
  obtain ⟨hlimit, hopen, hindex⟩ := limit_and_index_agree_with_slice hitems
  obtain ⟨t, hcut, hslice⟩ := hlimit 5 1 1 6 hfirst hlast
  cases hcut
  obtain ⟨u, hcut, hslice'⟩ := hopen 1 1 hfirst
  cases hcut
  obtain ⟨v, found, hv, hrebuilt, hok, -⟩ := hindex (-1) hlt
  have hold : (index (-1)).run s = .ok (.scalar (.object old)) := rfl
  obtain ⟨x, rfl, hx⟩ := (hok _).1 hold
  cases hx
  obtain rfl : v = .records [old] := hrebuilt.unique ⟨rfl, rfl⟩
  obtain ⟨w, found, hw, hrebuilt, -, herror⟩ := hindex (-3) hlt'
  have hout : (index (-3)).run s = .error (.indexOutOfRange (-3) 2) := rfl
  obtain ⟨rfl, -⟩ := (herror _).1 hout
  obtain rfl : w = .records [] := hrebuilt.unique ⟨rfl, rfl⟩
  exact ⟨hitems, hfirst, hlast, hlt, hlt', rfl, hslice, hslice', hv, hold, hw, hout⟩

end Stage

end ResourceQuery
