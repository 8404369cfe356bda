import Mathlib.Algebra.BigOperators.Ring.Finset
import ResourceQuery.Proofs.Pipeline.Blame
import ResourceQuery.Proofs.Pipeline.Duplicates

/-!
How rows are put into groups. Each row goes to the first group with an equal key, or founds a group
behind the others. So the groups share out the rows among them, keep them in their order and stand
in the order of the rows that founded them, and their keys are those of the rows without
repetitions. A row with `nan` in its key is not even equal to itself and stays alone.
-/

set_option autoImplicit false

namespace ResourceQuery

theorem Number.toInt_saturateInt64 {n : Nat} (h : n < 2 ^ 63) : (saturateInt64 n).toInt = n := by
  have hmin : Int64.minValue.toInt = -2 ^ 63 := rfl
  have hmax : Int64.maxValue.toInt = 2 ^ 63 - 1 := rfl
  rw [saturateInt64, if_neg (by omega), if_neg (by omega)]
  exact Int64.toInt_ofInt_of_le (by omega) (by omega)

namespace State

/-- The first member of a group stands at a position of the rows and has the key of the group. The
other members follow it in their order, and the key of the group equals the key of each. -/
def Founded (key : Path) (rows : List Record) (g : Group) (position : Nat) : Prop :=
  ∃ first rest, g.2 = first :: rest ∧ rows[position]? = some first ∧ key.lookup first = .ok g.1 ∧
    rest.Sublist (rows.drop (position + 1)) ∧
      ∀ r ∈ rest, ∃ k, key.lookup r = .ok k ∧ g.1.looseEq k = true

/-- What the groups of rows are: each row is a member of one of them, they are founded by rows one
behind the other, and their keys are those of the rows without repetitions. -/
structure Grouped (key : Path) (rows : List Record) (gs : List Group) : Prop where
  perm : (gs.flatMap Prod.snd).Perm rows
  founded : ∃ positions : List Nat, positions.Pairwise (· < ·) ∧
    List.Forall₂ (Founded key rows) gs positions
  keys : ∃ ks, key.extract rows = .ok ks ∧
    gs.map Prod.fst = distinctBy Value.looseEq [] ks

section Step

variable {key : Path} {rows : List Record} {gs : List Group} {g : Group} {position : Nat}
  {k : Value} {r : Record}

theorem Founded.lt_length (h : Founded key rows g position) : position < rows.length := by
  obtain ⟨_, _, _, hposition, _⟩ := h
  exact (List.getElem?_eq_some_iff.1 hposition).1

theorem Founded.append (h : Founded key rows g position) (r : Record) :
    Founded key (rows ++ [r]) g position := by
  have hlt := h.lt_length
  obtain ⟨first, rest, hg, hposition, hfirst, hrest, hkeys⟩ := h
  refine ⟨first, rest, hg, ?_, hfirst, ?_, hkeys⟩
  · rw [List.getElem?_append_left hlt, hposition]
  · rw [List.drop_append_of_le_length hlt]
    exact hrest.trans (List.sublist_append_left _ _)

/-- A later row with an equal key joins a group at its end. -/
theorem Founded.join {seen : Value} {members : List Record}
    (h : Founded key rows (seen, members) position) (hk : key.lookup r = .ok k)
    (hequal : seen.looseEq k = true) :
    Founded key (rows ++ [r]) (seen, members ++ [r]) position := by
  have hlt := h.lt_length
  obtain ⟨first, rest, hmembers, hposition, hfirst, hrest, hkeys⟩ := h
  obtain rfl : members = first :: rest := hmembers
  refine ⟨first, rest ++ [r], rfl, ?_, hfirst, ?_, ?_⟩
  · rw [List.getElem?_append_left hlt, hposition]
  · rw [List.drop_append_of_le_length hlt]
    exact hrest.append (.refl [r])
  · rw [List.forall_mem_append, List.forall_mem_singleton]
    exact ⟨hkeys, k, hk, hequal⟩

theorem founded_last (hk : key.lookup r = .ok k) (rows : List Record) :
    Founded key (rows ++ [r]) (k, [r]) rows.length := by
  refine ⟨r, [], rfl, ?_, hk, List.nil_sublist _, List.forall_mem_nil _⟩
  rw [List.getElem?_concat_length]

/-- One row more founds no group, or one behind all others. -/
theorem founded_addToGroup {positions : List Nat} (h : List.Forall₂ (Founded key rows) gs positions)
    (hk : key.lookup r = .ok k) :
    List.Forall₂ (Founded key (rows ++ [r])) (addToGroup k r gs) positions ∨
      List.Forall₂ (Founded key (rows ++ [r])) (addToGroup k r gs)
        (positions ++ [rows.length]) := by
  induction h with
  | nil => exact .inr (.cons (founded_last hk rows) .nil)
  | @cons g position gs positions hg hgs ih =>
    rw [addToGroup]
    split
    · next hequal =>
      exact .inl (.cons (hg.join hk hequal) (hgs.imp fun _ _ h ↦ h.append r))
    · exact ih.imp (.cons (hg.append r)) (.cons (hg.append r))

theorem members_addToGroup (k : Value) (r : Record) (gs : List Group) :
    ((addToGroup k r gs).flatMap Prod.snd).Perm (gs.flatMap Prod.snd ++ [r]) := by
  induction gs with
  | nil => exact .refl [r]
  | cons g gs ih =>
    rw [addToGroup]
    split
    · simp only [List.flatMap_cons, List.append_assoc]
      exact List.perm_append_comm.append_left g.2
    · simp only [List.flatMap_cons, List.append_assoc]
      exact ih.append_left g.2

theorem keys_addToGroup (k : Value) (r : Record) (gs : List Group) :
    (addToGroup k r gs).map Prod.fst = gs.map Prod.fst ++
      if (gs.map Prod.fst).any (·.looseEq k) then [] else [k] := by
  induction gs with
  | nil => rfl
  | cons g gs ih =>
    rw [addToGroup]
    split
    · next hequal => simp [hequal]
    · next hne =>
      rw [List.map_cons, List.map_cons, List.any_cons, Bool.eq_false_iff.2 hne, Bool.false_or, ih,
        List.cons_append]

theorem Grouped.addToGroup (h : Grouped key rows gs) (hk : key.lookup r = .ok k) :
    Grouped key (rows ++ [r]) (addToGroup k r gs) where
  perm := (members_addToGroup k r gs).trans (h.perm.append_right [r])
  founded := by
    obtain ⟨positions, hpositions, hfounded⟩ := h.founded
    obtain hsame | hmore := founded_addToGroup hfounded hk
    · exact ⟨positions, hpositions, hsame⟩
    · refine ⟨positions ++ [rows.length], List.pairwise_append.2 ⟨hpositions, ?_, ?_⟩, hmore⟩
      · exact List.pairwise_singleton _ _
      · intro position hposition
        rw [List.forall_mem_singleton]
        obtain ⟨g, hg⟩ := exists_forall₂_iff.1 ⟨gs, hfounded.flip⟩ position hposition
        exact Founded.lt_length hg
  keys := by
    obtain ⟨ks, hks, hkeys⟩ := h.keys
    refine ⟨ks ++ [k], ?_, ?_⟩
    · rw [Path.extract] at hks ⊢
      simp [List.mapM_append, hks, hk]
    · rw [keys_addToGroup, distinctBy_append_singleton, hkeys, List.nil_append]

end Step

section Run

variable {key : Path} {rows : List Record} {gs : List Group} {g : Group}

theorem groups_append_singleton (key : Path) (rows : List Record) (r : Record) :
    groups key (rows ++ [r]) =
      (groups key rows >>= fun gs ↦ key.lookup r >>= fun k ↦ .ok (addToGroup k r gs)) := by
  rw [groups, List.foldlM_append]
  simp only [List.foldlM_cons, List.foldlM_nil, bind_pure]
  rfl

theorem grouped_of_groups (h : groups key rows = .ok gs) : Grouped key rows gs := by
  -- rows are added at the end, so that the positions of the founders stay what they are
  induction rows using List.reverseRecOn generalizing gs with
  | nil =>
    cases h
    exact ⟨.refl [], ⟨[], .nil, .nil⟩, [], rfl, rfl⟩
  | append_singleton rows r ih =>
    simp only [groups_append_singleton, bind_eq_ok_iff, Except.ok.injEq] at h
    obtain ⟨before, hbefore, k, hk, rfl⟩ := h
    exact (ih hbefore).addToGroup hk

/-- Rows can be put into groups if all of them have a key. -/
theorem exists_groups (h : ∀ r ∈ rows, ∃ k, key.lookup r = .ok k) :
    ∃ gs, groups key rows = .ok gs := by
  induction rows using List.reverseRecOn with
  | nil => exact ⟨[], rfl⟩
  | append_singleton rows r ih =>
    rw [List.forall_mem_append, List.forall_mem_singleton] at h
    obtain ⟨hrows, k, hk⟩ := h
    obtain ⟨gs, hgs⟩ := ih hrows
    refine ⟨addToGroup k r gs, ?_⟩
    rw [groups_append_singleton, hgs, ok_bind, hk, ok_bind]

theorem Grouped.exists_founded (h : Grouped key rows gs) (hg : g ∈ gs) :
    ∃ position, Founded key rows g position := by
  obtain ⟨positions, -, hfounded⟩ := h.founded
  exact exists_forall₂_iff.1 ⟨positions, hfounded⟩ g hg

theorem Grouped.members_ne_nil (h : Grouped key rows gs) (hg : g ∈ gs) : g.2 ≠ [] := by
  obtain ⟨_, first, rest, hmembers, -⟩ := h.exists_founded hg
  simp [hmembers]

theorem Founded.starts {position : Nat} (h : Founded key rows g position) :
    rows[position]? = g.2.head? ∧ g.2.Sublist (rows.drop position) := by
  obtain ⟨first, rest, hmembers, hposition, -, hrest, -⟩ := h
  obtain ⟨hlt, rfl⟩ := List.getElem?_eq_some_iff.1 hposition
  rw [hmembers, List.drop_eq_getElem_cons hlt]
  exact ⟨hposition, hrest.cons_cons _⟩

theorem Grouped.members_sublist (h : Grouped key rows gs) (hg : g ∈ gs) : g.2.Sublist rows := by
  obtain ⟨position, hfounded⟩ := h.exists_founded hg
  exact hfounded.starts.2.trans (List.drop_sublist _ _)

/-- Rows with `nan` in their keys are groups of their own. -/
theorem Founded.member_equal {position : Nat} (h : Founded key rows g position) {r : Record}
    (hr : r ∈ g.2) :
    ∃ k, key.lookup r = .ok k ∧ (g.1.looseEq k = true ∨ g = (k, [r]) ∧ ¬ k.NaNFree) := by
  obtain ⟨founder, members⟩ := g
  obtain ⟨first, rest, hmembers, -, hfirst, -, hkeys⟩ := h
  obtain rfl : members = first :: rest := hmembers
  obtain rfl | hr := List.mem_cons.1 hr
  · refine ⟨founder, hfirst, ?_⟩
    by_cases hself : founder.looseEq founder = true
    · exact .inl hself
    · refine .inr ⟨?_, fun hfree ↦ hself (Value.looseEq_self_iff.2 hfree)⟩
      obtain rfl : rest = [] := by
        refine List.eq_nil_iff_forall_not_mem.2 fun later hlater ↦ hself ?_
        obtain ⟨k, -, hequal⟩ := hkeys later hlater
        exact Value.looseEq_self hequal
      rfl
  · obtain ⟨k, hk, hequal⟩ := hkeys r hr
    exact ⟨k, hk, .inl hequal⟩

theorem Grouped.sum_lengths (h : Grouped key rows gs) :
    (gs.map fun g ↦ g.2.length).sum = rows.length := by
  rw [← h.perm.length_eq, List.length_flatMap]

theorem reduceGroup_count (members : List Record) :
    reduceGroup members ⟨.count, none⟩ = .ok (.integer (Number.saturateInt64 members.length)) :=
  rfl

/-- Counting the members of each group counts the rows, if these are not too many to be counted. -/
theorem Grouped.sum_counts (h : Grouped key rows gs) :
    ∃ counts : List Int64,
      gs.mapM (fun g ↦ reduceGroup g.2 ⟨.count, none⟩) = .ok (counts.map .integer) ∧
        (rows.length < 2 ^ 63 → (counts.map Int64.toInt).sum = rows.length) := by
  refine ⟨gs.map fun g ↦ Number.saturateInt64 g.2.length, ?_, fun hlength ↦ ?_⟩
  · rw [mapM_eq_ok_iff, List.map_map, List.forall₂_map_right_iff, List.forall₂_same]
    exact fun g _ ↦ reduceGroup_count g.2
  · rw [← h.sum_lengths, List.map_map, Nat.cast_list_sum, List.map_map]
    congr 1
    refine List.map_congr_left fun g hg ↦ ?_
    have hg := (h.members_sublist hg).length_le
    exact Number.toInt_saturateInt64 (by omega)

/-- Rows that all have a key are put into groups. The groups are not empty, share out the rows and
keep them in their order; they stand in the order of their first members. The key of a group equals
the key of each member, unless it has `nan` in it: then it is the key of the only member. The keys
of the groups are what is left of the keys of the rows without repetitions. So the counts of the
groups add up to the number of rows, and no reduction finds a group empty. -/
theorem groups_partition (h : ∀ r ∈ rows, ∃ k, key.lookup r = .ok k) :
    ∃ gs ks, groups key rows = .ok gs ∧ key.extract rows = .ok ks ∧
      (gs.flatMap Prod.snd).Perm rows ∧
      (∀ g ∈ gs, g.2 ≠ [] ∧ g.2.Sublist rows) ∧
      (∀ g ∈ gs, ∀ r ∈ g.2, ∃ k, key.lookup r = .ok k ∧
        (g.1.looseEq k = true ∨ g = (k, [r]) ∧ ¬ k.NaNFree)) ∧
      (∃ positions : List Nat, positions.Pairwise (· < ·) ∧ List.Forall₂ (fun g position ↦
        rows[position]? = g.2.head? ∧ g.2.Sublist (rows.drop position)) gs positions) ∧
      Stage.distinct.run (.values ks) = .ok (.values (gs.map Prod.fst)) ∧
      (∃ counts : List Int64,
        gs.mapM (fun g ↦ reduceGroup g.2 ⟨.count, none⟩) = .ok (counts.map .integer) ∧
          (rows.length < 2 ^ 63 → (counts.map Int64.toInt).sum = rows.length)) ∧
      ∀ g ∈ gs, ∀ reducer op, reduceGroup g.2 reducer ≠ .error (.emptySequence op) := by
  obtain ⟨gs, hgs⟩ := exists_groups h
  have hgrouped := grouped_of_groups hgs
  obtain ⟨ks, hks, hkeys⟩ := hgrouped.keys
  obtain ⟨positions, hpositions, hfounded⟩ := hgrouped.founded
  refine ⟨gs, ks, hgs, hks, hgrouped.perm, ?_, ?_, ?_, ?_, hgrouped.sum_counts, ?_⟩
  · exact fun g hg ↦ ⟨hgrouped.members_ne_nil hg, hgrouped.members_sublist hg⟩
  · intro g hg r hr
    obtain ⟨position, hposition⟩ := hgrouped.exists_founded hg
    exact hposition.member_equal hr
  · exact ⟨positions, hpositions, hfounded.imp fun _ _ hposition ↦ hposition.starts⟩
  · rw [hkeys]
    rfl
  · intro g hg reducer op hempty
    cases blamesData_reduceGroup (hgrouped.members_ne_nil hg) reducer _ hempty

/-- An integer and the float of the same value are one group, and `nan` is another. -/
theorem groups_partition_of_hours :
    let key : Path := ⟨"hours", [.field "hours"]⟩
    let rows : List Record := [[("hours", .integer 8)], [("hours", .float .nan)],
      [("hours", .float (.ofInt 8))]]
    (∀ r ∈ rows, ∃ k, key.lookup r = .ok k) ∧
      ∃ gs, groups key rows = .ok gs ∧ gs.map (fun g ↦ g.2.length) = [2, 1] ∧
        (gs.flatMap Prod.snd).Perm rows ∧ ∀ g ∈ gs, g.2.Sublist rows := by
  intro key rows
  have hkeys : ∀ r ∈ rows, ∃ k, key.lookup r = .ok k := by
    simp only [rows, List.forall_mem_cons]
    exact ⟨⟨_, rfl⟩, ⟨_, rfl⟩, ⟨_, rfl⟩, List.forall_mem_nil _⟩
  obtain ⟨gs, -, hgs, -, hperm, hmembers, -⟩ := groups_partition hkeys
  have hlengths : (groups key rows).map (List.map fun g ↦ g.2.length) = .ok [2, 1] := by
    decide +kernel
  rw [hgs] at hlengths
  exact ⟨hkeys, gs, hgs, Except.ok.inj hlengths, hperm, fun g hg ↦ (hmembers g hg).2⟩

/-- The founder of a group need not have a key that is equal to itself. -/
theorem not_all_members_equal :
    ¬ ∀ (key : Path) (rows : List Record) (gs : List Group), groups key rows = .ok gs →
      ∀ g ∈ gs, ∀ r ∈ g.2, ∃ k, key.lookup r = .ok k ∧ g.1.looseEq k = true := by
  intro h
  obtain ⟨k, hk, hequal⟩ := h ⟨"hours", [.field "hours"]⟩ [[("hours", .float .nan)]] _ rfl _
    List.mem_cons_self _ List.mem_cons_self
  cases hk
  cases hequal

end Run

end State

end ResourceQuery
