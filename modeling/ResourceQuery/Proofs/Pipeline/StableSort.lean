import ResourceQuery.Proofs.Pipeline.Compilation
import ResourceQuery.Proofs.Pipeline.Insertion

/-!
Sorting rows by several keys, and values by themselves. Rows compare as the first key says that does
not find them equal, turned around where this key is descending. Where the values of each key are in
order, so are the rows, and a sort succeeds: it gives the rows in their order, and those that no key
tells apart as they came.
-/

set_option autoImplicit false

namespace ResourceQuery

/-- Whether values, in the order in which they come, can be sorted: any two of them compare, and the
answers are transitive. -/
structure Sort.Sortable (column : List Value) : Prop where
  comparable : column.Pairwise fun x y ↦ x.compare? y ≠ none
  transitive : ∀ x ∈ column, ∀ y ∈ column, ∀ z ∈ column, Sort.NotAfter (x.compare? y) →
    Sort.NotAfter (y.compare? z) → Sort.NotAfter (x.compare? z)

open ResourceQuery.Sort (Keyed NotAfter Sortable StablySorted)

namespace SortSpec

variable {key : SortSpec} {keys : List SortSpec} {r s t : Record}

/-- How two rows compare by one key, in its direction. -/
def compare? (key : SortSpec) (r s : Record) : Option Ordering :=
  (key.field.lookup r).toOption.bind fun x ↦ (key.field.lookup s).toOption.bind fun y ↦
    (x.compare? y).map key.direction.apply

/-- How two rows compare: the answer of the first key that does not find them equal. -/
def compareRows? (keys : List SortSpec) (r s : Record) : Option Ordering :=
  ((keys.map fun key ↦ key.compare? r s).find? (· ≠ some .eq)).getD (some .eq)

theorem compare?_of_lookup {x y : Value} (hr : key.field.lookup r = .ok x)
    (hs : key.field.lookup s = .ok y) :
    key.compare? r s = (x.compare? y).map key.direction.apply := by
  rw [compare?, hr, hs]
  rfl

theorem compare?_swap (key : SortSpec) (r s : Record) :
    key.compare? s r = (key.compare? r s).map Ordering.swap := by
  rw [compare?, compare?]
  rcases key.field.lookup r with _ | x <;> rcases key.field.lookup s with _ | y
  case ok.ok =>
    simp only [Except.toOption, Option.bind_some, Value.compare?_swap x y, Option.map_map]
    congr 1
    funext o
    exact Sort.apply_swap key.direction o
  all_goals rfl

theorem compareRows?_cons (key : SortSpec) (keys : List SortSpec) (r s : Record) :
    compareRows? (key :: keys) r s =
      if key.compare? r s = some .eq then compareRows? keys r s else key.compare? r s := by
  rw [compareRows?, List.map_cons, List.find?_cons]
  by_cases h : key.compare? r s = some .eq
  · simp [h, compareRows?]
  · simp [h]

theorem compareRows?_swap (keys : List SortSpec) (r s : Record) :
    compareRows? keys s r = (compareRows? keys r s).map Ordering.swap := by
  induction keys with
  | nil => rfl
  | cons key keys ih =>
    rw [compareRows?_cons, compareRows?_cons, ih, compare?_swap key r s]
    rcases key.compare? r s with _ | _ | _ | _ <;> rfl

theorem compareRows?_ne_none (h : ∀ key ∈ keys, key.compare? r s ≠ none) :
    compareRows? keys r s ≠ none := by
  induction keys with
  | nil => simp [compareRows?]
  | cons key keys ih =>
    rw [List.forall_mem_cons] at h
    rw [compareRows?_cons]
    split
    · exact ih h.2
    · exact h.1

/-- Where each key is transitive, so are all of them together. -/
theorem compareRows?_trans {p : Record → Prop}
    (h : ∀ key ∈ keys, ∀ r s t, p r → p s → p t → NotAfter (key.compare? r s) →
      NotAfter (key.compare? s t) → NotAfter (key.compare? r t)) (hr : p r) (hs : p s) (ht : p t)
    (hrs : NotAfter (compareRows? keys r s)) (hst : NotAfter (compareRows? keys s t)) :
    NotAfter (compareRows? keys r t) := by
  induction keys with
  | nil => exact hrs
  | cons key keys ih =>
    rw [List.forall_mem_cons] at h
    rw [compareRows?_cons] at hrs hst ⊢
    have hfirst : ∀ {o later : Option Ordering},
        NotAfter (if o = some .eq then later else o) → NotAfter o := by
      intro o later hle
      split at hle
      · next heq => exact .inr heq
      · exact hle
    have hrs' := hfirst hrs
    have hst' := hfirst hst
    obtain hlt | heq := h.1 r s t hr hs ht hrs' hst'
    · rw [hlt]
      exact .inl rfl
    · -- A key that finds the outer two equal finds all three equal.
      have htr : NotAfter (key.compare? t r) := by
        rw [compare?_swap key r t, heq]
        exact .inr rfl
      have hsr := h.1 s t r hs ht hr hst' htr
      have hts := h.1 t r s ht hr hs htr hrs'
      rw [compare?_swap key r s] at hsr
      rw [compare?_swap key s t] at hts
      rw [if_pos (Sort.eq_of_notAfter hrs' hsr)] at hrs
      rw [if_pos (Sort.eq_of_notAfter hst' hts)] at hst
      rw [if_pos heq]
      exact ih h.2 hrs hst

theorem notAfter_apply_iff {direction : Direction} {x y : Value} :
    NotAfter ((x.compare? y).map direction.apply) ↔
      match direction with
      | .ascending => NotAfter (x.compare? y)
      | .descending => NotAfter (y.compare? x) := by
  rw [Value.compare?_swap x y]
  cases direction <;> rcases x.compare? y with _ | _ | _ | _ <;> simp [NotAfter, Direction.apply]

/-- Comparing rows by a key is transitive where comparing what the key leads to is. -/
theorem compare?_trans {column : List Value} (h : Sortable column) {x y z : Value}
    (hx : x ∈ column) (hy : y ∈ column) (hz : z ∈ column) (hr : key.field.lookup r = .ok x)
    (hs : key.field.lookup s = .ok y) (ht : key.field.lookup t = .ok z)
    (hrs : NotAfter (key.compare? r s)) (hst : NotAfter (key.compare? s t)) :
    NotAfter (key.compare? r t) := by
  rw [compare?_of_lookup hr hs, notAfter_apply_iff] at hrs
  rw [compare?_of_lookup hs ht, notAfter_apply_iff] at hst
  rw [compare?_of_lookup hr ht, notAfter_apply_iff]
  obtain ⟨field, _ | _⟩ := key
  · exact h.transitive x hx y hy z hz hrs hst
  · exact h.transitive z hz y hy x hx hst hrs

theorem pairwise_compare? {rows : List Record} {column : List Value} (h : Sortable column)
    (hvalues : List.Forall₂ (fun r v ↦ key.field.lookup r = .ok v) rows column) :
    rows.Pairwise fun r s ↦ key.compare? r s ≠ none := by
  refine pairwise_of_forall₂ (fun hr hs hne ↦ ?_) hvalues h.comparable
  rwa [compare?_of_lookup hr hs, ne_eq, Option.map_eq_none_iff]

/-- Sorting compares the keys of two rows as the keys compare the rows. -/
theorem toOption_compareKeys {xs ys : List Value} (hr : State.keysOf keys r = .ok xs)
    (hs : State.keysOf keys s = .ok ys) :
    (Sort.compareKeys (keys.map direction) xs ys).toOption = compareRows? keys r s := by
  induction keys generalizing xs ys with
  | nil => rfl
  | cons key keys ih =>
    rw [State.keysOf, List.mapM_cons] at hr hs
    obtain ⟨x, hx, hr⟩ := bind_eq_ok_iff.1 hr
    obtain ⟨y, hy, hs⟩ := bind_eq_ok_iff.1 hs
    obtain ⟨xs, hxs, hr⟩ := bind_eq_ok_iff.1 hr
    obtain ⟨ys, hys, hs⟩ := bind_eq_ok_iff.1 hs
    cases hr
    cases hs
    rw [List.map_cons, Sort.toOption_compareKeys_cons, compareRows?_cons, ih hxs hys,
      compare?_of_lookup hx hy]
    rcases x.compare? y with _ | _ | _ | _ <;> cases key.direction <;> rfl

end SortSpec

namespace State

variable {keys : List SortSpec} {rows : List Record}

/-- Rows that have all keys are sorted by them. -/
theorem exists_keyed (h : ∀ r ∈ rows, ∀ key ∈ keys, ∃ v, key.field.lookup r = .ok v) :
    ∃ keyed : List (Keyed Record),
      sortRows keys rows = Sort.byKeys (keys.map SortSpec.direction) keyed ∧
        keyed.map Prod.snd = rows ∧ ∀ pair ∈ keyed, keysOf keys pair.2 = .ok pair.1 := by
  have hkeys : ∀ r ∈ rows, ∃ pair : Keyed Record,
      (do return (← keysOf keys r, r) : Except EvalError (Keyed Record)) = .ok pair := by
    intro r hr
    obtain ⟨xs, hxs⟩ := exists_mapM_eq_ok_iff.2 (h r hr)
    refine ⟨(xs, r), ?_⟩
    rw [keysOf, hxs]
    rfl
  obtain ⟨keyed, hkeyed⟩ := exists_mapM_eq_ok_iff.2 hkeys
  refine ⟨keyed, ?_, keyed_of_mapM hkeyed⟩
  rw [sortRows]
  exact congrArg (· >>= _) hkeyed

theorem stablySorted_sortRows
    (h : ∀ key ∈ keys, ∃ column, key.field.extract rows = .ok column ∧ Sortable column) :
    ∃ sorted, sortRows keys rows = .ok sorted ∧
      StablySorted (SortSpec.compareRows? keys) rows sorted := by
  have hcolumn : ∀ key ∈ keys, ∃ column, Sortable column ∧
      List.Forall₂ (fun r v ↦ key.field.lookup r = .ok v) rows column := by
    intro key hkey
    obtain ⟨column, hextract, hsortable⟩ := h key hkey
    exact ⟨column, hsortable, mapM_eq_ok_iff.1 hextract⟩
  have hpresent : ∀ r ∈ rows, ∀ key ∈ keys, ∃ v, key.field.lookup r = .ok v := by
    intro r hr key hkey
    obtain ⟨column, -, hvalues⟩ := hcolumn key hkey
    obtain ⟨v, -, hv⟩ := exists_mem_of_forall₂ hvalues hr
    exact ⟨v, hv⟩
  obtain ⟨keyed, hsort, hrows, hkeyed⟩ := exists_keyed hpresent
  rw [hsort, ← hrows]
  refine Sort.stablySorted_byKeys (fun a ha b hb ↦ ?_) ?_ ?_
  · exact SortSpec.toOption_compareKeys (hkeyed a ha) (hkeyed b hb)
  · rw [hrows, List.pairwise_iff_forall_sublist]
    intro r s hsublist
    refine SortSpec.compareRows?_ne_none fun key hkey ↦ ?_
    obtain ⟨column, hsortable, hvalues⟩ := hcolumn key hkey
    exact List.pairwise_iff_forall_sublist.1 (SortSpec.pairwise_compare? hsortable hvalues) hsublist
  · rw [hrows]
    intro r hr s hs t ht
    refine SortSpec.compareRows?_trans (p := (· ∈ rows)) ?_ hr hs ht
    intro key hkey r s t hr hs ht
    obtain ⟨column, hsortable, hvalues⟩ := hcolumn key hkey
    obtain ⟨x, hx, hrx⟩ := exists_mem_of_forall₂ hvalues hr
    obtain ⟨y, hy, hsy⟩ := exists_mem_of_forall₂ hvalues hs
    obtain ⟨z, hz, htz⟩ := exists_mem_of_forall₂ hvalues ht
    exact SortSpec.compare?_trans hsortable hx hy hz hrx hsy htz

theorem stablySorted_values {vs : List Value} (h : Sortable vs) :
    ∃ sorted, Sort.byKeys [.ascending] (vs.map fun v ↦ ([v], v)) = .ok sorted ∧
      StablySorted Value.compare? vs sorted := by
  have hvalues : (vs.map fun v ↦ (([v], v) : Keyed Value)).map Prod.snd = vs := by
    rw [List.map_map]
    exact List.map_id vs
  have hkeys : ∀ x y : Value, Sort.compare? [.ascending] ([x], x) ([y], y) = x.compare? y := by
    intro x y
    rw [Sort.compare?, Sort.toOption_compareKeys_cons]
    rcases x.compare? y with _ | _ | _ | _ <;> rfl
  nth_rewrite 2 [← hvalues]
  refine Sort.stablySorted_byKeys ?_ ?_ ?_
  · simp only [List.forall_mem_map]
    exact fun x _ y _ ↦ hkeys x y
  · rw [hvalues]
    exact h.comparable
  · rw [hvalues]
    exact h.transitive

end State

/-- Sorting is stable. Rows that have all keys, where any two values of one key compare and these
answers are transitive, are sorted: the result has each row as often as it was there, the first key
that tells two rows apart puts them in its direction, and rows that no key tells apart stay in their
order. The same holds of values that are sorted by themselves. -/
theorem Stage.stablySorted_sort :
    (∀ (keys : List SortSpec) (rows : List Record), keys ≠ [] →
      (∀ key ∈ keys, ∃ column, key.field.extract rows = .ok column ∧ Sortable column) →
      ∃ sorted, StablySorted (SortSpec.compareRows? keys) rows sorted ∧
        (sort keys).run (.records rows) = .ok (.records sorted) ∧
        (sort keys).run (.grouped rows) = .ok (.grouped sorted)) ∧
    ∀ vs, Sortable vs → ∃ sorted, StablySorted Value.compare? vs sorted ∧
      (sort []).run (.values vs) = .ok (.values sorted) := by
  constructor
  · intro keys rows hkeys h
    obtain ⟨sorted, hsorted, hstable⟩ := State.stablySorted_sortRows h
    have hempty : keys.isEmpty = false := by simpa using hkeys
    refine ⟨sorted, hstable, ?_, ?_⟩
    all_goals simp [run, State.sort, hempty, hsorted]
  · intro vs h
    obtain ⟨sorted, hsorted, hstable⟩ := State.stablySorted_values h
    refine ⟨sorted, hstable, ?_⟩
    simp [run, State.sort, hsorted]

/-- The oldest first and then by city: two people who differ in nothing that is asked for stay as
they came, though the age of one is a decimal. -/
theorem Stage.stablySorted_sort_of_people :
    let person (age : Value) (city name : String) : Record :=
      [("age", age), ("city", .string city), ("name", .string name)]
    let ann := person (.integer 30) "Rome" "ann"
    let bob := person (.integer 41) "Oslo" "bob"
    let cid := person (.decimal (.ofInt64 30)) "Oslo" "cid"
    let dan := person (.integer 30) "Oslo" "dan"
    let keys : List SortSpec :=
      [⟨⟨"age", [.field "age"]⟩, .descending⟩, ⟨⟨"city", [.field "city"]⟩, .ascending⟩]
    let rows := [ann, bob, cid, dan]
    keys ≠ [] ∧
      (∀ key ∈ keys, ∃ column, key.field.extract rows = .ok column ∧ Sortable column) ∧
      ∃ sorted, StablySorted (SortSpec.compareRows? keys) rows sorted ∧
        (sort keys).run (.records rows) = .ok (.records sorted) ∧
        sorted = [bob, cid, dan, ann] := by
  intro person ann bob cid dan keys rows
  have hne : keys ≠ [] := List.cons_ne_nil _ _
  have hages : Sortable [.integer 30, .integer 41, .decimal (.ofInt64 30), .integer 30] :=
    ⟨by decide +kernel, by decide +kernel⟩
  have hcities : Sortable [.string "Rome", .string "Oslo", .string "Oslo", .string "Oslo"] :=
    ⟨by decide +kernel, by decide +kernel⟩
  have hcolumns : ∀ key ∈ keys, ∃ column, key.field.extract rows = .ok column ∧ Sortable column :=
    List.forall_mem_cons.2 ⟨⟨_, rfl, hages⟩, List.forall_mem_singleton.2 ⟨_, rfl, hcities⟩⟩
  obtain ⟨sorted, hstable, hrun, -⟩ := stablySorted_sort.1 keys rows hne hcolumns
  have hresult : (sort keys).run (.records rows) = .ok (.records [bob, cid, dan, ann]) :=
    rfl
  refine ⟨hne, hcolumns, sorted, hstable, hrun, ?_⟩
  rw [hrun] at hresult
  cases hresult
  rfl

end ResourceQuery
