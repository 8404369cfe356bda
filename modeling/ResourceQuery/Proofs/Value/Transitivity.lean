import ResourceQuery.Proofs.Value.Equality

/-!
Where the order of values is transitive. Values are built from leaves of some kinds as arrays of
arrays to any depth, and two of them meet only in leaves of these kinds. Comparison is transitive
over kinds exactly if no two of them are compared after a lossy conversion. So it is on integers and
decimals together, and on strings where nothing is with them that they would be read as.
-/

set_option autoImplicit false

namespace ResourceQuery.Value

/-- The values built from leaves of some kinds, as arrays of such values to any depth. -/
inductive BuiltFrom (kinds : List Kind) : Value → Prop where
  | leaf {a : Value} {k : Kind} (hkind : a.kind? = some k) (hmem : k ∈ kinds) : BuiltFrom kinds a
  | array {items : List Value} (h : ∀ x ∈ items, BuiltFrom kinds x) :
    BuiltFrom kinds (.array items)

/-- Whether comparison composes on the values built from some kinds: a value that is not behind a
second one compares with whatever this is not behind, as equal if both pairs are equal and as less
otherwise. -/
def TransitiveOver (kinds : List Kind) : Prop :=
  ∀ a b c : Value, BuiltFrom kinds a → BuiltFrom kinds b → BuiltFrom kinds c →
    ∀ o p : Ordering, compare? a b = some o → compare? b c = some p → o ≠ .gt → p ≠ .gt →
      compare? a c = some (if o = .eq ∧ p = .eq then .eq else .lt)

theorem builtFrom_array_iff {kinds : List Kind} {items : List Value} :
    BuiltFrom kinds (.array items) ↔ ∀ x ∈ items, BuiltFrom kinds x := by
  refine ⟨fun h ↦ ?_, .array⟩
  cases h with
  | leaf hkind => cases hkind
  | array h => exact h

namespace BuiltFrom

variable {kinds : List Kind} {a b x : Value}

theorem mem_of_kind {k : Kind} (h : BuiltFrom kinds a) (hkind : a.kind? = some k) : k ∈ kinds := by
  cases h with
  | leaf hkind' hmem =>
    obtain rfl := Option.some.inj (hkind'.symm.trans hkind)
    exact hmem
  | array => cases hkind

theorem part {step : Step} (h : BuiltFrom kinds a) (hx : part? step a = some x) :
    BuiltFrom kinds x := by
  cases h with
  | leaf hkind =>
    rw [part?_eq_none hkind] at hx
    cases hx
  | array h =>
    cases step with
    | item i => exact h x (List.mem_of_getElem? hx)
    | field name => cases hx

theorem of_at {path : List Step} (h : BuiltFrom kinds a) (hx : at? path a = some x) :
    BuiltFrom kinds x := by
  induction path generalizing a with
  | nil =>
    obtain rfl := Option.some.inj hx
    exact h
  | cons step path ih =>
    obtain ⟨y, hy, hx⟩ := Option.bind_eq_some_iff.1 hx
    exact ih (h.part hy) hx

/-- Values meet only in the kinds that they are built from. -/
theorem exact (hkinds : ∀ k ∈ kinds, ∀ l ∈ kinds, ¬ k.Lossy l) (ha : BuiltFrom kinds a)
    (hb : BuiltFrom kinds b) : Exact a b := by
  rintro path x y hx hy ⟨k, l, hk, hl, hlossy⟩
  exact hkinds k ((ha.of_at hx).mem_of_kind hk) l ((hb.of_at hy).mem_of_kind hl) hlossy

end BuiltFrom

/-- What loses something in a comparison: numbers that meet floats and epochs, and strings that are
read as another kind. -/
theorem Kind.lossyPairs_cases : ∀ pair ∈ lossyPairs, pair.2 = .float ∨ pair.2 = .epoch ∨
    pair.1 = .string ∧ pair.2 ∈ [Kind.decimal, .date, .dateTime, .uuid] := by
  decide

theorem then_of_ne_gt {o p : Ordering} (ho : o ≠ .gt) (hp : p ≠ .gt) :
    o.then p = if o = .eq ∧ p = .eq then .eq else .lt := by
  cases o <;> cases p <;> simp_all

/-- The order is transitive exactly over the kinds of which no two are compared after a lossy
conversion. -/
theorem transitiveOver_iff {kinds : List Kind} :
    TransitiveOver kinds ↔ ∀ k ∈ kinds, ∀ l ∈ kinds, ¬ k.Lossy l := by
  constructor
  · intro h k hk l hl hlossy
    obtain ⟨a, b, c, -, hleaves, hab, hbc, hac⟩ := hlossy.confused
    have hleaf : ∀ v ∈ [a, b, c], ∃ m ∈ kinds, v.kind? = some m := by
      intro v hv
      obtain hkind | hkind := hleaves v hv
      · exact ⟨k, hk, hkind⟩
      · exact ⟨l, hl, hkind⟩
    obtain ⟨_, hma, ha⟩ := hleaf a (by simp)
    obtain ⟨_, hmb, hb⟩ := hleaf b (by simp)
    obtain ⟨_, hmc, hc⟩ := hleaf c (by simp)
    have heq := h a b c (.leaf ha hma) (.leaf hb hmb) (.leaf hc hmc) .eq .eq
      ((looseEq_iff_of_kind ha).1 hab) ((looseEq_iff_of_kind hb).1 hbc) (by decide) (by decide)
    rw [(looseEq_iff_of_kind ha).2 heq] at hac
    cases hac
  · intro h a b c ha hb hc o p ho hp hogt hpgt
    rw [compare?_trans (ha.exact h hb) (hb.exact h hc) ho hp hogt hpgt, then_of_ne_gt hogt hpgt]

/-- The order is transitive on values without floats, epochs and objects at any depth, unless
strings come together with decimals, dates, datetimes or uuids in them: where the first value is not
behind the second and the second not behind the third, the first and the third compare, as equal if
both pairs do and as less otherwise. -/
theorem compare?_transitive {kinds : List Kind} (hfloat : .float ∉ kinds) (hepoch : .epoch ∉ kinds)
    (hstring : .string ∈ kinds → ∀ k ∈ [Kind.decimal, .date, .dateTime, .uuid], k ∉ kinds)
    {a b c : Value} (ha : BuiltFrom kinds a) (hb : BuiltFrom kinds b) (hc : BuiltFrom kinds c)
    {o p : Ordering} (hab : compare? a b = some o) (hbc : compare? b c = some p) (ho : o ≠ .gt)
    (hp : p ≠ .gt) : compare? a c = some (if o = .eq ∧ p = .eq then .eq else .lt) := by
  have hpairs : ∀ k ∈ kinds, ∀ l ∈ kinds, (k, l) ∉ Kind.lossyPairs := by
    intro k hk l hl hpair
    obtain hl' | hl' | ⟨hk', hread⟩ := Kind.lossyPairs_cases (k, l) hpair
    · exact hfloat (hl' ▸ hl)
    · exact hepoch (hl' ▸ hl)
    · exact hstring (hk' ▸ hk) l hread hl
  refine transitiveOver_iff.2 (fun k hk l hl hlossy ↦ ?_) a b c ha hb hc o p hab hbc ho hp
  exact hlossy.elim (hpairs k hk l hl) (hpairs l hl k hk)

/-- Integers and decimals that are equal place by place, and then a longer array. -/
theorem compare?_transitive_of_numbers :
    let kinds : List Kind := [.null, .integer, .decimal]
    let a : Value := .array [.decimal (.ofInt64 1), .array [.integer 2]]
    let b : Value := .array [.integer 1, .array [.decimal (.ofInt64 2)]]
    let c : Value := .array [.integer 1, .array [.integer 2], .null]
    .float ∉ kinds ∧ .epoch ∉ kinds ∧
      (.string ∈ kinds → ∀ k ∈ [Kind.decimal, .date, .dateTime, .uuid], k ∉ kinds) ∧
      BuiltFrom kinds a ∧ BuiltFrom kinds b ∧ BuiltFrom kinds c ∧ compare? a b = some .eq ∧
      compare? b c = some .lt ∧ compare? a c = some .lt := by
  intro kinds a b c
  have hstring : Kind.string ∉ kinds := by decide
  have hnull : BuiltFrom kinds .null := .leaf rfl (by decide)
  have hinteger : ∀ n, BuiltFrom kinds (.integer n) := fun _ ↦ .leaf rfl (by decide)
  have hdecimal : ∀ d, BuiltFrom kinds (.decimal d) := fun _ ↦ .leaf rfl (by decide)
  have ha : BuiltFrom kinds a := by simp [a, builtFrom_array_iff, hinteger, hdecimal]
  have hb : BuiltFrom kinds b := by simp [b, builtFrom_array_iff, hinteger, hdecimal]
  have hc : BuiltFrom kinds c := by simp [c, builtFrom_array_iff, hinteger, hnull]
  have hab : compare? a b = some .eq := by decide +kernel
  have hbc : compare? b c = some .lt := by decide +kernel
  exact ⟨by decide, by decide, fun h ↦ absurd h hstring, ha, hb, hc, hab, hbc,
    compare?_transitive (by decide) (by decide) (fun h ↦ absurd h hstring) ha hb hc hab hbc
      (by decide) (by decide)⟩

end ResourceQuery.Value
