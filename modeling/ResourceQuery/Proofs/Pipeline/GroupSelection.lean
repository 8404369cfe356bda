import ResourceQuery.Proofs.Pipeline.Aggregation
import ResourceQuery.Proofs.Pipeline.Rows

/-!
Aggregating compared with filtering and reducing. A row is compared with the first row of each group
only, so that a row of another group may well have an equal key. Where equality is an equivalence on
the keys it has not: then a group has all rows with a key that equals its own, in their order, and
what a reduction finds in the group is what it finds in all rows behind a filter by that key.
-/

set_option autoImplicit false

namespace ResourceQuery

theorem Predicate.keep_eq_filter {p : Predicate} {holds : Record → Bool} {rows : List Record}
    (h : ∀ r ∈ rows, p.test r = .ok (holds r)) : p.keep rows = .ok (rows.filter holds) := by
  induction rows with
  | nil => rfl
  | cons r rest ih =>
    rw [List.forall_mem_cons] at h
    rw [keep, h.1, ok_bind, List.filter_cons, ih h.2]
    split <;> rfl

namespace State

/-- Equality of values is an equivalence on the keys of rows. -/
def KeysEquivalent (key : Path) (rows : List Record) : Prop :=
  Equivalence fun a b : {k // ∃ r ∈ rows, key.lookup r = .ok k} ↦ a.1.looseEq b.1 = true

/-- Whether the key of a row equals a value. -/
def hasKey (key : Path) (k : Value) (r : Record) : Bool :=
  (key.lookup r).toOption.any (·.looseEq k)

variable {key : Path} {k : Value} {r : Record} {rows : List Record} {gs : List Group}
  {g other : Group} {reducer : Reducer} {s t : State}

theorem hasKey_of_lookup {seen : Value} (h : key.lookup r = .ok seen) :
    hasKey key k r = seen.looseEq k := by
  rw [hasKey, h]
  rfl

theorem test_eq_hasKey (h : ∃ seen, key.lookup r = .ok seen) :
    (Predicate.compare .eq key (.literal k)).test r = .ok (hasKey key k r) := by
  obtain ⟨seen, hseen⟩ := h
  rw [Predicate.test, hasKey_of_lookup hseen, hseen]
  rfl

/-- Equality is symmetric anyway, and the other two laws can be tested on the keys. -/
theorem keysEquivalent_iff {ks : List Value} (h : key.extract rows = .ok ks) :
    KeysEquivalent key rows ↔ ∀ a ∈ ks, a.looseEq a = true ∧ ∀ b ∈ ks, ∀ c ∈ ks,
      a.looseEq b = true → b.looseEq c = true → a.looseEq c = true := by
  have hks := mapM_eq_ok_iff.1 h
  have hkey : ∀ k, k ∈ ks ↔ ∃ r ∈ rows, key.lookup r = .ok k := by
    refine fun k ↦ ⟨fun hk ↦ exists_mem_of_forall₂ hks.flip hk, ?_⟩
    rintro ⟨r, hr, hk⟩
    obtain ⟨found, hmem, hfound⟩ := exists_mem_of_forall₂ hks hr
    cases hk.symm.trans hfound
    exact hmem
  constructor
  · intro hequiv a ha
    refine ⟨hequiv.refl ⟨a, (hkey a).1 ha⟩, fun b hb c hc hab hbc ↦ ?_⟩
    exact hequiv.trans (x := ⟨a, (hkey a).1 ha⟩) (y := ⟨b, (hkey b).1 hb⟩)
      (z := ⟨c, (hkey c).1 hc⟩) hab hbc
  · intro hlaws
    refine ⟨fun a ↦ (hlaws a ((hkey _).2 a.2)).1, Value.looseEq_symm, ?_⟩
    intro a b c
    exact (hlaws a ((hkey _).2 a.2)).2 b ((hkey _).2 b.2) c ((hkey _).2 c.2)

theorem Grouped.exists_key (h : Grouped key rows gs) (hg : g ∈ gs) :
    ∃ r ∈ rows, key.lookup r = .ok g.1 := by
  obtain ⟨_, first, _, _, hposition, hfirst, -⟩ := h.exists_founded hg
  exact ⟨first, List.mem_of_getElem? hposition, hfirst⟩

theorem Grouped.pairwise_ne (h : Grouped key rows gs) :
    gs.Pairwise fun g other ↦ g.1.looseEq other.1 = false := by
  obtain ⟨ks, -, hkeys⟩ := h.keys
  have hpairwise : (distinctBy Value.looseEq [] ks).Pairwise _ := (distinctBy_pairwise [] ks).2
  rwa [← hkeys, List.pairwise_map] at hpairwise

/-- All members of a group have a key that equals a value, or none has. -/
theorem Grouped.hasKey_member (h : Grouped key rows gs) (hequiv : KeysEquivalent key rows)
    (hg : g ∈ gs) (hother : other ∈ gs) (hr : r ∈ other.2) :
    hasKey key g.1 r = other.1.looseEq g.1 := by
  obtain ⟨position, hfounded⟩ := h.exists_founded hother
  obtain ⟨seen, hseen, hmember⟩ := hfounded.member_equal hr
  let own : {k // ∃ r ∈ rows, key.lookup r = .ok k} :=
    ⟨seen, r, (h.members_sublist hother).subset hr, hseen⟩
  let theirs : {k // ∃ r ∈ rows, key.lookup r = .ok k} := ⟨other.1, h.exists_key hother⟩
  let wanted : {k // ∃ r ∈ rows, key.lookup r = .ok k} := ⟨g.1, h.exists_key hg⟩
  have hown : theirs.1.looseEq own.1 = true := by
    obtain hequal | ⟨rfl, -⟩ := hmember
    · exact hequal
    · exact hequiv.refl own
  rw [hasKey_of_lookup hseen, Bool.eq_iff_iff]
  exact ⟨hequiv.trans (z := wanted) hown, hequiv.trans (z := wanted) (hequiv.symm hown)⟩

theorem Grouped.filter_members (h : Grouped key rows gs) (hequiv : KeysEquivalent key rows)
    (hg : g ∈ gs) : g.2.filter (hasKey key g.1) = g.2 := by
  refine List.filter_eq_self.2 fun r hr ↦ ?_
  rw [h.hasKey_member hequiv hg hg hr]
  exact hequiv.refl ⟨g.1, h.exists_key hg⟩

theorem Grouped.filter_others (h : Grouped key rows gs) (hequiv : KeysEquivalent key rows)
    (hg : g ∈ gs) (hother : other ∈ gs) (hne : other.1.looseEq g.1 = false) :
    other.2.filter (hasKey key g.1) = [] := by
  refine List.filter_eq_nil_iff.2 fun r hr ↦ ?_
  rw [h.hasKey_member hequiv hg hother hr, hne]
  exact Bool.false_ne_true

/-- Of all members of groups, those that have the key of a group are its own. -/
theorem Grouped.filter_flatMap (h : Grouped key rows gs) (hequiv : KeysEquivalent key rows)
    (hg : g ∈ gs) : (gs.flatMap Prod.snd).filter (hasKey key g.1) = g.2 := by
  -- the list is split at the group, because only the keys of groups at two places are not equal
  obtain ⟨before, after, rfl⟩ := List.append_of_mem hg
  obtain ⟨-, hafter, hbefore⟩ := List.pairwise_append.1 h.pairwise_ne
  have hfront : before.flatMap (fun other ↦ other.2.filter (hasKey key g.1)) = [] := by
    refine List.flatMap_eq_nil_iff.2 fun other hother ↦ ?_
    exact h.filter_others hequiv hg (List.mem_append_left _ hother)
      (hbefore other hother g List.mem_cons_self)
  have hback : after.flatMap (fun other ↦ other.2.filter (hasKey key g.1)) = [] := by
    refine List.flatMap_eq_nil_iff.2 fun other hother ↦ ?_
    have hne := (List.pairwise_cons.1 hafter).1 other hother
    rw [← Value.looseEq_comm] at hne
    exact h.filter_others hequiv hg
      (List.mem_append_right _ (List.mem_cons_of_mem g hother)) hne
  rw [List.filter_flatMap, List.flatMap_append, List.flatMap_cons, hfront, hback,
    h.filter_members hequiv hg, List.nil_append, List.append_nil]

/-- The members of a group are the rows that have its key, in their order. -/
theorem Grouped.members_eq_filter (h : Grouped key rows gs) (hequiv : KeysEquivalent key rows)
    (hg : g ∈ gs) : g.2 = rows.filter (hasKey key g.1) := by
  have hsublist : g.2.Sublist (rows.filter (hasKey key g.1)) := by
    have hsublist := (h.members_sublist hg).filter (hasKey key g.1)
    rwa [h.filter_members hequiv hg] at hsublist
  refine hsublist.eq_of_length ?_
  rw [← (h.perm.filter _).length_eq, h.filter_flatMap hequiv hg]

/-- Filtering the rows by the key of a group and reducing what is left is reducing the group. -/
theorem Grouped.runAll_filter_reduce (h : Grouped key rows gs) (hequiv : KeysEquivalent key rows)
    (hrows : s.rows? = some rows) (hg : g ∈ gs)
    (hfield : reducer.field = none ↔ reducer.function = .count) :
    Stage.runAll [.filter (.compare .eq key (.literal g.1)), .reduce reducer] s =
      (reduceGroup g.2 reducer >>= fun v ↦ .ok (.scalar v)) := by
  have hlookup : ∀ r ∈ rows, ∃ seen, key.lookup r = .ok seen := by
    intro r hr
    obtain ⟨own, hown, hmember⟩ := List.mem_flatMap.1 (h.perm.mem_iff.2 hr)
    obtain ⟨position, hfounded⟩ := h.exists_founded hown
    obtain ⟨seen, hseen, -⟩ := hfounded.member_equal hmember
    exact ⟨seen, hseen⟩
  have hkept : (Predicate.compare .eq key (.literal g.1)).keep rows = .ok g.2 := by
    rw [h.members_eq_filter hequiv hg]
    exact Predicate.keep_eq_filter fun r hr ↦ test_eq_hasKey (hlookup r hr)
  rw [Stage.runAll_cons, Stage.run, filter_of_rows hrows, hkept, ok_bind, ok_bind,
    Stage.runAll_cons, Stage.run, reduce_of_rows (rows?_withRows hrows g.2) hfield, bind_assoc]
  rfl

end State

/-- Where equality is an equivalence on the keys of the rows and no reduction has the name of the
key, each record that an aggregate emits says what filtering all rows by its key and reducing them
gives. -/
theorem Stage.aggregate_eq_filter_reduce {args : List Arg} {key : Path} {reducers : List Reducer}
    {rows : List Record} {s t : State} (hreducers : Compile.innerReducers [] args = .ok reducers)
    (hclear : ∀ reducer ∈ reducers, reducer.function.name ≠ key.name)
    (hrows : s.rows? = some rows) (hequiv : State.KeysEquivalent key rows)
    (hrun : (aggregate key reducers).run s = .ok t) :
    ∃ emitted, t = .grouped emitted ∧ ∀ out ∈ emitted, ∃ k, Record.get? key.name out = some k ∧
      ∀ reducer ∈ reducers, ∃ v, Record.get? reducer.function.name out = some v ∧
        runAll [.filter (.compare .eq key (.literal k)), .reduce reducer] s = .ok (.scalar v) := by
  obtain ⟨_, gs, emitted, hfound, hgs, hemitted, rfl⟩ := State.run_aggregate_eq_ok_iff.1 hrun
  obtain rfl := Option.some.inj (hrows.symm.trans hfound)
  have hspec := Compile.innerReducers_spec hreducers
  refine ⟨emitted, rfl, fun out hout ↦ ?_⟩
  obtain ⟨g, hg, hsummary⟩ := exists_mem_of_forall₂ hemitted.flip hout
  obtain ⟨hresults, -, hkey⟩ := State.fields_of_summarize hspec.2 hsummary
  refine ⟨g.1, hkey hclear, fun reducer hreducer ↦ ?_⟩
  obtain ⟨v, hv, hfield⟩ := hresults reducer hreducer
  refine ⟨v, hfield, ?_⟩
  rw [(State.grouped_of_groups hgs).runAll_filter_reduce hequiv hrows hg
    (hspec.1 reducer hreducer).2, hv, ok_bind]

/-- An integer and the decimal of the same value are one key. -/
theorem Stage.aggregate_eq_filter_reduce_of_floor :
    let args : List Arg := [.call "sum" [.value (.string "rent")], .call "count" []]
    let key : Path := ⟨"floor", [.field "floor"]⟩
    let reducers : List Reducer := [⟨.sum, some ⟨"rent", [.field "rent"]⟩⟩, ⟨.count, none⟩]
    let rows : List Record := [[("floor", .integer 2), ("rent", .integer 700)],
      [("floor", .integer 1), ("rent", .integer 500)],
      [("floor", .decimal (.ofInt64 2)), ("rent", .integer 600)]]
    let emitted : List Record :=
      [[("floor", .integer 2), ("sum", .integer 1300), ("count", .integer 2)],
        [("floor", .integer 1), ("sum", .integer 500), ("count", .integer 1)]]
    Compile.innerReducers [] args = .ok reducers ∧
      (∀ reducer ∈ reducers, reducer.function.name ≠ key.name) ∧ State.KeysEquivalent key rows ∧
      (aggregate key reducers).run (.records rows) = .ok (.grouped emitted) ∧
      ∀ out ∈ emitted, ∃ k, Record.get? key.name out = some k ∧
        ∀ reducer ∈ reducers, ∃ v, Record.get? reducer.function.name out = some v ∧
          runAll [.filter (.compare .eq key (.literal k)), .reduce reducer] (.records rows) =
            .ok (.scalar v) := by
  intro args key reducers rows emitted
  have hreducers : Compile.innerReducers [] args = .ok reducers := rfl
  have hclear : ∀ reducer ∈ reducers, reducer.function.name ≠ key.name := by decide
  have hequiv : State.KeysEquivalent key rows := by
    have hks : key.extract rows = .ok [.integer 2, .integer 1, .decimal (.ofInt64 2)] := rfl
    rw [State.keysEquivalent_iff hks]
    decide +kernel
  have hrun : (aggregate key reducers).run (.records rows) = .ok (.grouped emitted) := rfl
  obtain ⟨_, hemitted, hall⟩ := aggregate_eq_filter_reduce hreducers hclear rfl hequiv hrun
  cases hemitted
  exact ⟨hreducers, hclear, hequiv, hrun, hall⟩

end ResourceQuery
