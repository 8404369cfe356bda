import Mathlib.Data.List.Chain
import ResourceQuery.Proofs.Pipeline.Blame
import ResourceQuery.Proofs.Pipeline.Rows
import ResourceQuery.Proofs.Pipeline.StableSort

/-!
When sorting fails. A sort compares the rows that it has to, and fails only if two of these do not
compare. Which ones it has to is known of rows that are inserted one after the other, that is up to
`Sort.insertionLimit` of them. Rows that end up as neighbours have been compared; two rows that do
not compare may be kept apart by others that compare with both, and then nothing is noticed. So
whether such a pair is noticed may depend on the order in which the rows come.

The lemmas follow the insertion at any length. What they say of a sort, other than that it fails
only if two rows do not compare, they say of rows within the limit, and so the result has it as a
hypothesis. Not described here is which rows a sort of more rows compares.
-/

set_option autoImplicit false

namespace ResourceQuery.Sort

variable {α : Type} {directions : List Direction} {x y : Keyed α}
  {sorted rest result elements : List (Keyed α)}

/-- An element that is inserted has been compared with both of its neighbours. -/
theorem isChain_cons_insert (hxy : NotAfter (compare? directions x y))
    (hsorted : (y :: sorted).IsChain fun a b ↦ NotAfter (compare? directions b a))
    (h : insert directions x sorted = .ok result) :
    (y :: result).IsChain fun a b ↦ NotAfter (compare? directions b a) := by
  induction sorted generalizing y result with
  | nil =>
    cases h
    exact List.isChain_pair.2 hxy
  | cons z rest ih =>
    obtain ⟨hyz, hrest⟩ := List.isChain_cons_cons.1 hsorted
    obtain ⟨hlt, inserted, hinserted, rfl⟩ | ⟨hzx, rfl⟩ := insert_cons_eq_ok_iff.1 h
    · exact .cons_cons hyz (ih (.inl hlt) hrest hinserted)
    · exact .cons_cons hxy (.cons_cons hzx hrest)

theorem isChain_insert
    (hsorted : sorted.IsChain fun a b ↦ NotAfter (compare? directions b a))
    (h : insert directions x sorted = .ok result) :
    result.IsChain fun a b ↦ NotAfter (compare? directions b a) := by
  cases sorted with
  | nil =>
    cases h
    exact .singleton x
  | cons y rest =>
    obtain ⟨hlt, inserted, hinserted, rfl⟩ | ⟨hyx, rfl⟩ := insert_cons_eq_ok_iff.1 h
    · exact isChain_cons_insert (.inl hlt) hsorted hinserted
    · exact .cons_cons hyx hsorted

theorem isChain_insertAll
    (hsorted : sorted.IsChain fun a b ↦ NotAfter (compare? directions b a))
    (h : insertAll directions sorted rest = .ok result) :
    result.IsChain fun a b ↦ NotAfter (compare? directions b a) := by
  induction rest generalizing sorted with
  | nil =>
    cases h
    exact hsorted
  | cons x rest ih =>
    obtain ⟨inserted, hinserted, h⟩ := bind_eq_ok_iff.1 h
    exact ih (isChain_insert hsorted hinserted) h

/-- Elements of which none belongs behind the next one stay where they are. -/
theorem insertAll_of_isChain
    (h : (y :: rest).IsChain fun a b ↦ NotAfter (compare? directions a b)) :
    insertAll directions (y :: sorted) rest = .ok (rest.reverse ++ y :: sorted) := by
  induction rest generalizing y sorted with
  | nil => rfl
  | cons x rest ih =>
    obtain ⟨hyx, hrest⟩ := List.isChain_cons_cons.1 h
    rw [insertAll, insert_cons_eq_ok_iff.2 (.inr ⟨hyx, rfl⟩), ok_bind, ih hrest, List.reverse_cons,
      List.append_assoc]
    rfl

/-- Sorting succeeds on elements that climb, and what it gives climbs. -/
theorem exists_byKeys_of_isChain
    (h : elements.IsChain fun a b ↦ NotAfter (compare? directions a b)) :
    ∃ sorted, byKeys directions elements = .ok sorted := by
  cases elements with
  | nil => exact ⟨_, rfl⟩
  | cons y rest =>
    have hall : insertAll directions [] (y :: rest) = .ok (rest.reverse ++ [y]) :=
      insertAll_of_isChain h
    exact ⟨_, by rw [byKeys, hall]; rfl⟩

theorem isChain_of_byKeys {sorted : List α} (h : byKeys directions elements = .ok sorted) :
    ∃ climbing : List (Keyed α), climbing.Perm elements ∧
      climbing.IsChain (fun a b ↦ NotAfter (compare? directions a b)) ∧
      climbing.map Prod.snd = sorted := by
  obtain ⟨result, hresult, h⟩ := bind_eq_ok_iff.1 h
  cases h
  refine ⟨result.reverse, (List.reverse_perm result).trans (insertAll_perm hresult), ?_, rfl⟩
  exact List.isChain_reverse.2 (isChain_insertAll .nil hresult)

/-- Elements of which any two compare are sorted. -/
theorem exists_byKeys (h : elements.Pairwise fun a b ↦ compare? directions a b ≠ none) :
    ∃ sorted, byKeys directions elements = .ok sorted := by
  have hswap : elements.Pairwise fun a b ↦ compare? directions b a ≠ none :=
    h.imp fun {a b} hab ↦ by rwa [compare?_swap a b, ne_eq, Option.map_eq_none_iff]
  obtain ⟨result, hresult⟩ := exists_insertAll hswap fun _ _ _ hy ↦ absurd hy List.not_mem_nil
  exact ⟨_, by rw [byKeys, hresult]; rfl⟩

/-- The first two elements are compared, whatever comes behind them. -/
theorem byKeys_ne_ok_of_clash (h : compare? directions x y = none) (rest : List (Keyed α))
    (sorted : List α) : byKeys directions (x :: y :: rest) ≠ .ok sorted := by
  intro hok
  obtain ⟨result, hresult, -⟩ := bind_eq_ok_iff.1 hok
  obtain ⟨first, hfirst, hrest⟩ := bind_eq_ok_iff.1 hresult
  cases hfirst
  obtain ⟨second, hsecond, -⟩ := bind_eq_ok_iff.1 hrest
  obtain ⟨hlt, -⟩ | ⟨hle, -⟩ := insert_cons_eq_ok_iff.1 hsecond
  · rw [compare?_swap x y, h] at hlt
    cases hlt
  · rw [h] at hle
    simp [NotAfter] at hle

end ResourceQuery.Sort

namespace ResourceQuery

open ResourceQuery.Sort (NotAfter)

namespace SortSpec

variable {keys : List SortSpec} {rows other : List Record}

/-- Whether two of the rows do not compare. -/
def Clash (keys : List SortSpec) (rows : List Record) : Prop :=
  ∃ r s, [r, s].Sublist rows ∧ compareRows? keys r s = none

/-- Whether each row compares with the next one and does not belong behind it. -/
def Climbs (keys : List SortSpec) (rows : List Record) : Prop :=
  rows.IsChain fun r s ↦ NotAfter (compareRows? keys r s)

theorem not_clash_iff_pairwise :
    ¬ Clash keys rows ↔ rows.Pairwise fun r s ↦ compareRows? keys r s ≠ none := by
  rw [List.pairwise_iff_forall_sublist, Clash]
  push Not
  rfl

theorem clash_iff_of_perm (h : other.Perm rows) : Clash keys other ↔ Clash keys rows := by
  refine not_iff_not.1 (not_clash_iff_pairwise.trans (Iff.trans ?_ not_clash_iff_pairwise.symm))
  refine h.pairwise_iff fun {r s} hrs ↦ ?_
  rwa [compareRows?_swap keys r s, ne_eq, Option.map_eq_none_iff]

/-- Whether two records are among the rows and compare. -/
def Meet (keys : List SortSpec) (rows : List Record) (r s : Record) : Prop :=
  r ∈ rows ∧ s ∈ rows ∧ compareRows? keys r s ≠ none

/-- Where the rows that compare with a row compare with each other, all rows that climb compare. -/
theorem not_clash_of_climbs
    (htrans : ∀ r ∈ rows, ∀ s ∈ rows, ∀ t ∈ rows, compareRows? keys r s ≠ none →
      compareRows? keys s t ≠ none → compareRows? keys r t ≠ none) (h : Climbs keys rows) :
    ¬ Clash keys rows := by
  have : IsTrans Record (Meet keys rows) :=
    ⟨fun r s t ⟨hr, hs, hrs⟩ ⟨_, ht, hst⟩ ↦ ⟨hr, ht, htrans r hr s hs t ht hrs hst⟩⟩
  have hchain : rows.IsChain (Meet keys rows) := by
    refine h.imp_of_mem_imp fun r s hr hs hle ↦ ⟨hr, hs, fun hnone ↦ ?_⟩
    rw [hnone] at hle
    simp [NotAfter] at hle
  exact not_clash_iff_pairwise.2 (hchain.pairwise.imp fun hrs ↦ hrs.2.2)

/-- Rows that do not compare can come first. -/
theorem Clash.exists_perm_cons (h : Clash keys rows) :
    ∃ r s rest, (r :: s :: rest).Perm rows ∧ compareRows? keys r s = none := by
  obtain ⟨r, s, hsublist, hnone⟩ := h
  obtain ⟨rest, hperm⟩ := hsublist.exists_perm_append
  exact ⟨r, s, rest, hperm.symm, hnone⟩

end SortSpec

namespace State

variable {keys : List SortSpec} {rows other sorted : List Record}
  (hpresent : ∀ r ∈ rows, ∀ key ∈ keys, ∃ v, key.field.lookup r = .ok v)

include hpresent

theorem exists_sortRows_of_climbs (h : SortSpec.Climbs keys rows) :
    ∃ sorted, sortRows keys rows = .ok sorted := by
  obtain ⟨keyed, hsort, rfl, hkeyed⟩ := exists_keyed hpresent
  rw [hsort]
  refine Sort.exists_byKeys_of_isChain ((List.isChain_map _).1 h |>.imp_of_mem_imp ?_)
  intro a b ha hb hle
  rwa [Sort.compare?, SortSpec.toOption_compareKeys (hkeyed a ha) (hkeyed b hb)]

theorem climbs_of_sortRows (h : sortRows keys rows = .ok sorted) : SortSpec.Climbs keys sorted := by
  obtain ⟨keyed, hsort, -, hkeyed⟩ := exists_keyed hpresent
  obtain ⟨climbing, hperm, hchain, rfl⟩ := Sort.isChain_of_byKeys (hsort.symm.trans h)
  refine (List.isChain_map _).2 (hchain.imp_of_mem_imp fun a b ha hb hle ↦ ?_)
  rwa [← SortSpec.toOption_compareKeys (hkeyed a (hperm.mem_iff.1 ha))
    (hkeyed b (hperm.mem_iff.1 hb))]

theorem exists_sortRows_of_not_clash (h : ¬ SortSpec.Clash keys rows) :
    ∃ sorted, sortRows keys rows = .ok sorted := by
  obtain ⟨keyed, hsort, rfl, hkeyed⟩ := exists_keyed hpresent
  rw [SortSpec.not_clash_iff_pairwise, List.pairwise_map] at h
  rw [hsort]
  refine Sort.exists_byKeys (h.imp_of_mem fun {a b} ha hb hne ↦ ?_)
  rwa [Sort.compare?, SortSpec.toOption_compareKeys (hkeyed a ha) (hkeyed b hb)]

theorem failsOnly_sortRows : FailsOnly Sort.Unsortable (sortRows keys rows) := by
  obtain ⟨keyed, hsort, -⟩ := exists_keyed hpresent
  rw [hsort]
  exact Sort.failsOnly_byKeys _ keyed

omit hpresent in
/-- Rows that do not compare are noticed if they come first. -/
theorem sortRows_ne_ok_of_clash {r s : Record} {rest : List Record}
    (hpresent : ∀ r' ∈ r :: s :: rest, ∀ key ∈ keys, ∃ v, key.field.lookup r' = .ok v)
    (h : SortSpec.compareRows? keys r s = none) : sortRows keys (r :: s :: rest) ≠ .ok sorted := by
  obtain ⟨keyed, hsort, hrows, hkeyed⟩ := exists_keyed hpresent
  obtain ⟨a, _, rfl, rfl, htail⟩ := List.map_eq_cons_iff.1 hrows
  obtain ⟨b, tail, rfl, rfl, -⟩ := List.map_eq_cons_iff.1 htail
  rw [hsort]
  refine Sort.byKeys_ne_ok_of_clash ?_ tail sorted
  rw [← h]
  exact SortSpec.toOption_compareKeys (hkeyed a (by simp)) (hkeyed b (by simp))

end State

namespace Stage

variable {keys : List SortSpec} {rows : List Record}

/-- Whether sorting rows fails because values of two of them cannot be sorted. -/
def SortFails (keys : List SortSpec) (rows : List Record) : Prop :=
  ∃ e, Sort.Unsortable e ∧ (sort keys).run (.records rows) = .error e

theorem run_sort_of_ne_nil (hkeys : keys ≠ []) :
    (sort keys).run (.records rows) =
      (do return .records (← State.sortRows keys rows) : Except EvalError State) :=
  State.sort_of_rows (s := .records rows) hkeys rfl

section Present

variable (hpresent : ∀ r ∈ rows, ∀ key ∈ keys, ∃ v, key.field.lookup r = .ok v)

include hpresent

theorem sortFails_iff : SortFails keys rows ↔ ∀ sorted, State.sortRows keys rows ≠ .ok sorted := by
  by_cases hkeys : keys = []
  · subst hkeys
    have hclash : ¬ SortSpec.Clash [] rows := fun ⟨_, _, _, hnone⟩ ↦ by cases hnone
    obtain ⟨sorted, hsorted⟩ := State.exists_sortRows_of_not_clash hpresent hclash
    refine iff_of_false ?_ fun h ↦ h sorted hsorted
    rintro ⟨_, ⟨left, right, rfl⟩, hrun⟩
    cases hrun
  · rw [SortFails, run_sort_of_ne_nil hkeys]
    have honly := State.failsOnly_sortRows hpresent
    rcases hsort : State.sortRows keys rows with e | sorted
    · simp [honly e hsort]
    · simp

theorem not_sortFails_iff :
    ¬ SortFails keys rows ↔ ∃ sorted, State.sortRows keys rows = .ok sorted := by
  rw [sortFails_iff hpresent]
  push Not
  rfl

theorem clash_of_sortFails (h : SortFails keys rows) : SortSpec.Clash keys rows := by
  by_contra hclash
  exact (not_sortFails_iff hpresent).2 (State.exists_sortRows_of_not_clash hpresent hclash) h

/-- Rows can be sorted in the order in which they climb. -/
theorem exists_climbs_iff :
    (∃ other : List Record, other.Perm rows ∧ SortSpec.Climbs keys other) ↔
      ∃ other : List Record, other.Perm rows ∧ ¬ SortFails keys other := by
  constructor
  · rintro ⟨other, hperm, hclimbs⟩
    have hother := fun r hr ↦ hpresent r (hperm.mem_iff.1 hr)
    refine ⟨other, hperm, (not_sortFails_iff hother).2 ?_⟩
    exact State.exists_sortRows_of_climbs hother hclimbs
  · rintro ⟨other, hperm, hsorts⟩
    have hother := fun r hr ↦ hpresent r (hperm.mem_iff.1 hr)
    obtain ⟨sorted, hsorted⟩ := (not_sortFails_iff hother).1 hsorts
    exact ⟨sorted, (State.sortRows_perm hsorted).trans hperm,
      State.climbs_of_sortRows hother hsorted⟩

/-- Rows two of which do not compare fail to sort in some order. -/
theorem exists_sortFails_of_clash (h : SortSpec.Clash keys rows) :
    ∃ other : List Record, other.Perm rows ∧ SortFails keys other := by
  obtain ⟨r, s, rest, hperm, hnone⟩ := h.exists_perm_cons
  have hother := fun r hr ↦ hpresent r (hperm.mem_iff.1 hr)
  refine ⟨_, hperm, (sortFails_iff hother).2 fun sorted ↦ ?_⟩
  exact State.sortRows_ne_ok_of_clash hother hnone

theorem forall_perm_sortFails_iff :
    (∀ other : List Record, other.Perm rows →
        (SortFails keys other ↔ SortSpec.Clash keys rows)) ↔
      (SortSpec.Clash keys rows →
        ¬ ∃ other : List Record, other.Perm rows ∧ SortSpec.Climbs keys other) := by
  rw [exists_climbs_iff hpresent]
  constructor
  · rintro h hclash ⟨other, hperm, hsorts⟩
    exact hsorts ((h other hperm).2 hclash)
  · intro h other hperm
    have hother := fun r hr ↦ hpresent r (hperm.mem_iff.1 hr)
    constructor
    · exact fun hfails ↦ (SortSpec.clash_iff_of_perm hperm).1 (clash_of_sortFails hother hfails)
    · intro hclash
      by_contra hsorts
      exact h hclash ⟨other, hperm, hsorts⟩

end Present

/-- When a sort of rows that have all keys fails. It does only if two of the rows do not compare. Up
to `Sort.insertionLimit` rows fail for no other reason than values that cannot be sorted, and rows
two of which do not compare fail in some order. They fail in every order exactly if they climb in
none, that is if in none each row compares with the next one and does not belong behind it. So it is
where rows that compare with one row compare with each other. -/
theorem sortFails_iff_clash
    (hpresent : ∀ r ∈ rows, ∀ key ∈ keys, ∃ v, key.field.lookup r = .ok v) :
    (SortFails keys rows → SortSpec.Clash keys rows) ∧
    (rows.length ≤ Sort.insertionLimit →
      (keys ≠ [] → FailsOnly Sort.Unsortable ((sort keys).run (.records rows))) ∧
      (SortSpec.Clash keys rows →
        ∃ other : List Record, other.Perm rows ∧ SortFails keys other) ∧
      ((∀ other : List Record, other.Perm rows →
          (SortFails keys other ↔ SortSpec.Clash keys rows)) ↔
        (SortSpec.Clash keys rows →
          ¬ ∃ other : List Record, other.Perm rows ∧ SortSpec.Climbs keys other)) ∧
      ((∀ r ∈ rows, ∀ s ∈ rows, ∀ t ∈ rows, SortSpec.compareRows? keys r s ≠ none →
          SortSpec.compareRows? keys s t ≠ none → SortSpec.compareRows? keys r t ≠ none) →
        ∀ other : List Record, other.Perm rows →
          (SortFails keys other ↔ SortSpec.Clash keys rows))) := by
  refine ⟨clash_of_sortFails hpresent, fun _ ↦ ⟨fun hkeys ↦ ?_, exists_sortFails_of_clash hpresent,
    forall_perm_sortFails_iff hpresent, fun htrans ↦ ?_⟩⟩
  · rw [run_sort_of_ne_nil hkeys]
    exact (State.failsOnly_sortRows hpresent).map _
  · refine (forall_perm_sortFails_iff hpresent).2 ?_
    rintro hclash ⟨other, hperm, hclimbs⟩
    refine SortSpec.not_clash_of_climbs ?_ hclimbs ((SortSpec.clash_iff_of_perm hperm).2 hclash)
    simpa only [hperm.mem_iff] using htrans

/-- Numbers and a word are never sorted, in whatever order they come. -/
theorem sortFails_of_word :
    let row (v : Value) : Record := [("k", v)]
    let keys : List SortSpec := [⟨⟨"k", [.field "k"]⟩, .ascending⟩]
    let rows := [.integer 3, .string "x", .decimal (.ofInt64 4)].map row
    (∀ r ∈ rows, ∀ key ∈ keys, ∃ v, key.field.lookup r = .ok v) ∧
      rows.length ≤ Sort.insertionLimit ∧
      ∀ other : List Record, other.Perm rows → SortFails keys other := by
  intro row keys rows
  have hpresent : ∀ r ∈ rows, ∀ key ∈ keys, ∃ v, key.field.lookup r = .ok v :=
    List.forall_mem_map.2 fun v _ ↦ List.forall_mem_singleton.2 ⟨v, rfl⟩
  have hshort : rows.length ≤ Sort.insertionLimit := by decide
  have hclash : SortSpec.Clash keys rows :=
    ⟨row (.integer 3), row (.string "x"), .cons_cons _ (.cons_cons _ (List.nil_sublist _)), rfl⟩
  have htrans : ∀ r ∈ rows, ∀ s ∈ rows, ∀ t ∈ rows, SortSpec.compareRows? keys r s ≠ none →
      SortSpec.compareRows? keys s t ≠ none → SortSpec.compareRows? keys r t ≠ none := by
    decide +kernel
  obtain ⟨-, -, -, hall⟩ := (sortFails_iff_clash hpresent).2 hshort
  exact ⟨hpresent, hshort, fun other hperm ↦ (hall htrans other hperm).2 hclash⟩

/-- A decimal between an integer and a numeral keeps these two apart, which do not compare. -/
theorem clash_not_noticed :
    ¬ ∀ (keys : List SortSpec) (rows : List Record),
      (∀ r ∈ rows, ∀ key ∈ keys, ∃ v, key.field.lookup r = .ok v) →
        (SortFails keys rows ↔ SortSpec.Clash keys rows) := by
  intro h
  let row (v : Value) : Record := [("k", v)]
  let keys : List SortSpec := [⟨⟨"k", [.field "k"]⟩, .ascending⟩]
  let rows := [.integer 1, .decimal (.ofInt64 2), .string "3"].map row
  have hpresent : ∀ r ∈ rows, ∀ key ∈ keys, ∃ v, key.field.lookup r = .ok v :=
    List.forall_mem_map.2 fun v _ ↦ List.forall_mem_singleton.2 ⟨v, rfl⟩
  have hclash : SortSpec.Clash keys rows :=
    ⟨row (.integer 1), row (.string "3"), .cons_cons _ (.cons _ (.refl _)), rfl⟩
  obtain ⟨e, -, hfails⟩ := (h keys rows hpresent).2 hclash
  have hsorts : (sort keys).run (.records rows) = .ok (.records rows) := rfl
  rw [hsorts] at hfails
  cases hfails

end Stage

end ResourceQuery
