import ResourceQuery.Proofs.Value.Comparison

/-!
Loose equality as a relation. It asks for the same shape, leaves that compare equal, and equal parts
at every step. Main statements: it is reflexive exactly on the values without `nan`, symmetric, and
transitive where comparison is exact; the pairs of kinds where it is not are those that lead from
equal to unequal values. Like comparison, it does not depend on the order of its sides.
-/

set_option autoImplicit false

namespace ResourceQuery.Value

open Number (Binary64 Decimal)
open Calendar (Date DateTime)

/-- What loose equality asks of two values besides their parts. -/
inductive Agree : Value → Value → Prop where
  | arrays {xs ys : List Value} (h : xs.length = ys.length) : Agree (.array xs) (.array ys)
  | objects {r s : Record} (h : ∀ name, Record.contains name r = Record.contains name s) :
    Agree (.object r) (.object s)
  | leaves {a b : Value} (h : compareLeaves a b = some .eq) : Agree a b

theorem agree_arrays_iff {xs ys : List Value} :
    Agree (.array xs) (.array ys) ↔ xs.length = ys.length := by
  refine ⟨fun h ↦ ?_, .arrays⟩
  cases h with
  | arrays h => exact h
  | leaves h =>
    rw [compareLeaves_eq_none_left rfl] at h
    cases h

theorem agree_objects_iff {r s : Record} :
    Agree (.object r) (.object s) ↔
      ∀ name, Record.contains name r = Record.contains name s := by
  refine ⟨fun h ↦ ?_, .objects⟩
  cases h with
  | objects h => exact h
  | leaves h =>
    rw [compareLeaves_eq_none_left rfl] at h
    cases h

section Parts

theorem looseEqItems_iff {xs ys : List Value} :
    looseEqItems xs ys = true ↔ xs.length = ys.length ∧
      ∀ (i : Nat) (x y : Value), xs[i]? = some x → ys[i]? = some y → looseEq x y = true := by
  induction xs generalizing ys with
  | nil => cases ys <;> simp [looseEqItems]
  | cons x xs ih =>
    cases ys with
    | nil => simp [looseEqItems]
    | cons y ys =>
      rw [looseEqItems, Bool.and_eq_true, ih, List.length_cons, List.length_cons,
        Nat.add_right_cancel_iff]
      constructor
      · rintro ⟨hfirst, hlength, hrest⟩
        refine ⟨hlength, fun i u v hu hv ↦ ?_⟩
        cases i with
        | zero =>
          obtain rfl := Option.some.inj hu
          obtain rfl := Option.some.inj hv
          exact hfirst
        | succ i => exact hrest i u v hu hv
      · rintro ⟨hlength, h⟩
        exact ⟨h 0 x y rfl rfl, hlength, fun i ↦ h (i + 1)⟩

theorem looseEqFields_cons (seen : List String) (key : String) (value : Value) (rest s : Record) :
    looseEqFields seen ((key, value) :: rest) s =
      ((key ∈ seen || (Record.get? key s).any (looseEq value)) &&
        looseEqFields (key :: seen) rest s) := by
  rw [looseEqFields]
  cases Record.get? key s <;> rfl

theorem looseEqFields_iff {seen : List String} {r s : Record} :
    looseEqFields seen r s = true ↔ ∀ name x, name ∉ seen → Record.get? name r = some x →
      ∃ y, Record.get? name s = some y ∧ looseEq x y = true := by
  induction r generalizing seen with
  | nil => simp [looseEqFields, Record.get?]
  | cons field rest ih =>
    obtain ⟨key, value⟩ := field
    rw [looseEqFields_cons, Bool.and_eq_true, ih, Bool.or_eq_true, decide_eq_true_eq,
      Option.any_eq_true]
    constructor
    · rintro ⟨hfirst, hrest⟩ name x hname hx
      rw [Record.get?] at hx
      split at hx
      · next heq =>
        obtain rfl := Option.some.inj hx
        subst heq
        exact hfirst.resolve_left hname
      · next hne => exact hrest name x (by simp [hname, Ne.symm hne]) hx
    · intro h
      refine ⟨?_, fun name x hname hx ↦ ?_⟩
      · by_cases hkey : key ∈ seen
        · exact .inl hkey
        · exact .inr (h key value hkey (by simp [Record.get?]))
      · rw [List.mem_cons, not_or] at hname
        exact h name x hname.2 (by rw [Record.get?, if_neg (Ne.symm hname.1), hx])

theorem contains_iff_mem {name : String} {r : Record} :
    Record.contains name r = true ↔ ∃ field ∈ r, field.1 = name := by
  induction r with
  | nil => simp [Record.contains, Record.get?]
  | cons field rest ih =>
    rw [Record.contains] at ih ⊢
    rw [Record.get?]
    split
    · next h => simp [h]
    · next h => simpa [h] using ih

theorem looseEq_arrays_iff {xs ys : List Value} :
    looseEq (.array xs) (.array ys) = true ↔ Agree (.array xs) (.array ys) ∧
      ∀ step x y, part? step (.array xs) = some x → part? step (.array ys) = some y →
        looseEq x y = true := by
  rw [looseEq, looseEqItems_iff, agree_arrays_iff]
  refine and_congr_right fun _ ↦ ⟨fun h step x y hx hy ↦ ?_, fun h i ↦ h (.item i)⟩
  cases step with
  | item i => exact h i x y hx hy
  | field name => cases hx

theorem looseEq_objects_iff {r s : Record} :
    looseEq (.object r) (.object s) = true ↔ Agree (.object r) (.object s) ∧
      ∀ step x y, part? step (.object r) = some x → part? step (.object s) = some y →
        looseEq x y = true := by
  rw [looseEq, Bool.and_eq_true, looseEqFields_iff, List.all_eq_true, agree_objects_iff]
  constructor
  · rintro ⟨hfields, hnames⟩
    refine ⟨fun name ↦ Bool.eq_iff_iff.2 ⟨fun h ↦ ?_, fun h ↦ ?_⟩, fun step x y hx hy ↦ ?_⟩
    · obtain ⟨x, hx⟩ := Option.isSome_iff_exists.1 h
      obtain ⟨y, hy, _⟩ := hfields name x List.not_mem_nil hx
      exact Option.isSome_iff_exists.2 ⟨y, hy⟩
    · obtain ⟨field, hfield, rfl⟩ := contains_iff_mem.1 h
      exact hnames field hfield
    · cases step with
      | item i => cases hx
      | field name =>
        obtain ⟨y', hy', hequal⟩ := hfields name x List.not_mem_nil hx
        obtain rfl := Option.some.inj (hy'.symm.trans hy)
        exact hequal
  · rintro ⟨hnames, hparts⟩
    refine ⟨fun name x _ hx ↦ ?_, fun field hfield ↦ ?_⟩
    · have hcontains : Record.contains name s = true :=
        (hnames name).symm.trans (Option.isSome_iff_exists.2 ⟨x, hx⟩)
      obtain ⟨y, hy⟩ := Option.isSome_iff_exists.1 hcontains
      exact ⟨y, hy, hparts (.field name) x y hx hy⟩
    · exact (hnames field.1).trans (contains_iff_mem.2 ⟨field, hfield, rfl⟩)

theorem looseEq_leaves_iff {a b : Value} (harrays : ∀ xs ys, a = .array xs → b ≠ .array ys)
    (hobjects : ∀ r s, a = .object r → b ≠ .object s) :
    looseEq a b = true ↔ compareLeaves a b = some .eq := by
  cases a with
  | array xs =>
    rw [compareLeaves_eq_none_left rfl]
    cases b with
    | array ys => exact absurd rfl (harrays xs ys rfl)
    | _ => simp [looseEq]
  | object r =>
    rw [compareLeaves_eq_none_left rfl]
    cases b with
    | object s => exact absurd rfl (hobjects r s rfl)
    | _ => simp [looseEq]
  | _ => simp [looseEq, compare?_eq_compareLeaves harrays]

theorem looseEq_iff_of_kind {a b : Value} {k : Kind} (h : a.kind? = some k) :
    looseEq a b = true ↔ compare? a b = some .eq := by
  cases a <;> cases h <;> simp [looseEq]

theorem part?_eq_none {a : Value} {k : Kind} (h : a.kind? = some k) (step : Step) :
    part? step a = none := by
  cases a <;> cases h <;> cases step <;> rfl

/-- Two values are loosely equal if they agree and their parts are loosely equal. -/
theorem looseEq_iff {a b : Value} :
    looseEq a b = true ↔ Agree a b ∧ ∀ step x y, part? step a = some x →
      part? step b = some y → looseEq x y = true := by
  by_cases harrays : ∃ xs ys, a = .array xs ∧ b = .array ys
  · obtain ⟨xs, ys, rfl, rfl⟩ := harrays
    exact looseEq_arrays_iff
  by_cases hobjects : ∃ r s, a = .object r ∧ b = .object s
  · obtain ⟨r, s, rfl, rfl⟩ := hobjects
    exact looseEq_objects_iff
  rw [looseEq_leaves_iff fun xs ys ha hb ↦ harrays ⟨xs, ys, ha, hb⟩]
  · constructor
    · intro h
      obtain ⟨k, hk⟩ := (exists_kind_of_compareLeaves h).1
      refine ⟨.leaves h, fun step x y hx ↦ ?_⟩
      rw [part?_eq_none hk] at hx
      cases hx
    · rintro ⟨hagree, _⟩
      cases hagree with
      | arrays => exact absurd ⟨_, _, rfl, rfl⟩ harrays
      | objects => exact absurd ⟨_, _, rfl, rfl⟩ hobjects
      | leaves h => exact h
  · exact fun r s ha hb ↦ hobjects ⟨r, s, ha, hb⟩

end Parts

theorem Agree.symm {a b : Value} (h : Agree a b) : Agree b a := by
  cases h with
  | arrays h => exact .arrays h.symm
  | objects h => exact .objects fun name ↦ (h name).symm
  | leaves h =>
    refine .leaves ?_
    rw [compareLeaves_swap, h]
    rfl

theorem Agree.trans {a b c : Value} (hab : ¬ MeetLossy a b) (hbc : ¬ MeetLossy b c)
    (h : Agree a b) (h' : Agree b c) : Agree a c := by
  cases h with
  | arrays h =>
    cases h' with
    | arrays h' => exact .arrays (h.trans h')
    | leaves h' =>
      rw [compareLeaves_eq_none_left rfl] at h'
      cases h'
  | objects h =>
    cases h' with
    | objects h' => exact .objects fun name ↦ (h name).trans (h' name)
    | leaves h' =>
      rw [compareLeaves_eq_none_left rfl] at h'
      cases h'
  | leaves h =>
    cases h' with
    | arrays =>
      rw [compareLeaves_eq_none_right rfl] at h
      cases h
    | objects =>
      rw [compareLeaves_eq_none_right rfl] at h
      cases h
    | leaves h' => exact .leaves (compareLeaves_trans hab hbc h h' (by decide) (by decide))

/-- A step into one of two values that agree leads into the other too. -/
theorem Agree.exists_part {a b x : Value} {step : Step} (h : Agree a b)
    (hx : part? step a = some x) : ∃ y, part? step b = some y := by
  cases h with
  | @arrays xs ys h =>
    cases step with
    | item i =>
      obtain ⟨hi, _⟩ := List.getElem?_eq_some_iff.1 hx
      exact ⟨_, List.getElem?_eq_getElem (h ▸ hi)⟩
    | field name => cases hx
  | objects h =>
    cases step with
    | item i => cases hx
    | field name =>
      exact Option.isSome_iff_exists.1 ((h name).symm.trans (Option.isSome_iff_exists.2 ⟨x, hx⟩))
  | leaves h =>
    obtain ⟨k, hk⟩ := (exists_kind_of_compareLeaves h).1
    rw [part?_eq_none hk] at hx
    cases hx

theorem looseEq_symm {a b : Value} (h : looseEq a b = true) : looseEq b a = true := by
  induction a using induction_parts generalizing b with
  | h a ih =>
    obtain ⟨hagree, hparts⟩ := looseEq_iff.1 h
    refine looseEq_iff.2 ⟨hagree.symm, fun step y x hy hx ↦ ?_⟩
    exact ih step x hx (hparts step x y hx hy)

theorem looseEq_trans {a b c : Value} (hab : Exact a b) (hbc : Exact b c)
    (h : looseEq a b = true) (h' : looseEq b c = true) : looseEq a c = true := by
  induction a using induction_parts generalizing b c with
  | h a ih =>
    obtain ⟨hagree, hparts⟩ := looseEq_iff.1 h
    obtain ⟨hagree', hparts'⟩ := looseEq_iff.1 h'
    refine looseEq_iff.2 ⟨hagree.trans hab.not_meetLossy hbc.not_meetLossy hagree', ?_⟩
    intro step x z hx hz
    obtain ⟨y, hy⟩ := hagree.exists_part hx
    exact ih step x hx (hab.part step hx hy) (hbc.part step hy hz) (hparts step x y hx hy)
      (hparts' step y z hy hz)

/-- Whether no place within a value holds a float or an epoch that is not a number. -/
def NaNFree (a : Value) : Prop :=
  ∀ path, at? path a ≠ some (.float .nan) ∧ at? path a ≠ some (.epoch .nan)

theorem NaNFree.part {a x : Value} (h : NaNFree a) (step : Step) (hx : part? step a = some x) :
    NaNFree x := by
  intro path
  have hpath := h (step :: path)
  rwa [at?, hx] at hpath

theorem nanFree_iff {a : Value} :
    NaNFree a ↔ (a ≠ .float .nan ∧ a ≠ .epoch .nan) ∧
      ∀ step x, part? step a = some x → NaNFree x := by
  constructor
  · intro h
    obtain ⟨hfloat, hepoch⟩ := h []
    exact ⟨⟨fun heq ↦ hfloat (congrArg some heq), fun heq ↦ hepoch (congrArg some heq)⟩,
      fun step x hx ↦ h.part step hx⟩
  · rintro ⟨⟨hfloat, hepoch⟩, hparts⟩ path
    cases path with
    | nil => exact ⟨fun heq ↦ hfloat (Option.some.inj heq), fun heq ↦ hepoch (Option.some.inj heq)⟩
    | cons step path =>
      rw [at?]
      cases hx : part? step a with
      | none => simp
      | some x => exact hparts step x hx path

theorem agree_self_iff {a : Value} : Agree a a ↔ a ≠ .float .nan ∧ a ≠ .epoch .nan := by
  cases hkind : a.kind? with
  | none =>
    cases a with
    | array xs => exact ⟨fun _ ↦ by simp, fun _ ↦ .arrays rfl⟩
    | object r => exact ⟨fun _ ↦ by simp, fun _ ↦ .objects fun _ ↦ rfl⟩
    | _ => cases hkind
  | some k =>
    rw [← compareLeaves_self_iff hkind]
    refine ⟨fun h ↦ ?_, .leaves⟩
    cases h with
    | arrays => cases hkind
    | objects => cases hkind
    | leaves h => exact h

theorem looseEq_self_iff {a : Value} : looseEq a a = true ↔ NaNFree a := by
  induction a using induction_parts with
  | h a ih =>
    rw [looseEq_iff, nanFree_iff, agree_self_iff]
    refine and_congr_right fun _ ↦ ⟨fun h step x hx ↦ ?_, fun h step x y hx hy ↦ ?_⟩
    · exact (ih step x hx).1 (h step x x hx hx)
    · obtain rfl := Option.some.inj (hx.symm.trans hy)
      exact (ih step x hx).2 (h step x hx)

/-- Whether equals of equals may differ among values of two kinds without parts. -/
def Kind.Confused (k l : Kind) : Prop :=
  ∃ a b c : Value, (NaNFree a ∧ NaNFree b ∧ NaNFree c) ∧
    (∀ v ∈ [a, b, c], v.kind? = some k ∨ v.kind? = some l) ∧
    looseEq a b = true ∧ looseEq b c = true ∧ looseEq a c = false

theorem Kind.Confused.symm {k l : Kind} : Confused k l → Confused l k := by
  rintro ⟨a, b, c, hfree, hkinds, h⟩
  exact ⟨a, b, c, hfree, fun v hv ↦ (hkinds v hv).symm, h⟩

theorem exact_of_kinds {a b : Value} {k l : Kind} (ha : a.kind? = some k) (hb : b.kind? = some l)
    (h : ¬ k.Lossy l) : Exact a b := by
  intro path x y hx hy
  cases path with
  | nil =>
    obtain rfl := Option.some.inj hx
    obtain rfl := Option.some.inj hy
    rintro ⟨k', l', hk', hl', hlossy⟩
    obtain rfl := Option.some.inj (ha.symm.trans hk')
    obtain rfl := Option.some.inj (hb.symm.trans hl')
    exact h hlossy
  | cons step path =>
    rw [at?, part?_eq_none ha] at hx
    cases hx

theorem Kind.Confused.lossy {k l : Kind} : Confused k l → Lossy k l := by
  rintro ⟨a, b, c, _, hkinds, hab, hbc, hac⟩
  refine Decidable.byContradiction fun hexact ↦ ?_
  have hpair : ∀ u ∈ [a, b, c], ∀ v ∈ [a, b, c], Exact u v := by
    intro u hu v hv
    rcases hkinds u hu with hk | hk <;> rcases hkinds v hv with hl | hl
    · exact exact_of_kinds hk hl k.not_lossy_self
    · exact exact_of_kinds hk hl hexact
    · exact exact_of_kinds hk hl fun h ↦ hexact h.symm
    · exact exact_of_kinds hk hl l.not_lossy_self
  have htrans :=
    looseEq_trans (hpair a (by simp) b (by simp)) (hpair b (by simp) c (by simp)) hab hbc
  rw [hac] at htrans
  cases htrans

theorem Agree.self {a b : Value} (h : Agree a b) : Agree a a := by
  cases h with
  | arrays => exact .arrays rfl
  | objects => exact .objects fun _ ↦ rfl
  | leaves h => exact .leaves (compareLeaves_self h)

/-- What has an equal is equal to itself. -/
theorem looseEq_self {a b : Value} (h : looseEq a b = true) : looseEq a a = true := by
  induction a using induction_parts generalizing b with
  | h a ih =>
    obtain ⟨hagree, hparts⟩ := looseEq_iff.1 h
    refine looseEq_iff.2 ⟨hagree.self, fun step x y hx hy ↦ ?_⟩
    obtain rfl := Option.some.inj (hx.symm.trans hy)
    obtain ⟨z, hz⟩ := hagree.exists_part hx
    exact ih step x hx (hparts step x z hx hz)

theorem Kind.confused_of_looseEq {k l : Kind} (a b c : Value)
    (h : (∀ v ∈ [a, b, c], v.kind? = some k ∨ v.kind? = some l) ∧
      looseEq a b = true ∧ looseEq b c = true ∧ looseEq a c = false) : Confused k l := by
  obtain ⟨hkinds, hab, hbc, hac⟩ := h
  have ha := looseEq_self_iff.1 (looseEq_self hab)
  have hb := looseEq_self_iff.1 (looseEq_self hbc)
  have hc := looseEq_self_iff.1 (looseEq_self (looseEq_symm hbc))
  exact ⟨a, b, c, ⟨ha, hb, hc⟩, hkinds, hab, hbc, hac⟩

private def tenths (n : Nat) (h : n < Decimal.coefficientBound) : Decimal :=
  ⟨false, n, 1, h, by decide⟩

private def newYear : Date :=
  ⟨2020, 1, 1, by decide, by decide, by decide⟩

private def newYearPlus (nanos : Nat) (h : nanos < 2 * Calendar.nanosInSecond) : DateTime :=
  ⟨newYear, 0, nanos, 0, by decide, h, by decide⟩

/-- One collision for each pair: two values that are converted to the same third one. -/
theorem Kind.Lossy.confused {k l : Kind} (h : Lossy k l) : Confused k l := by
  have hpair : ∀ p ∈ lossyPairs, Confused p.1 p.2 := by
    simp only [lossyPairs, List.forall_mem_cons]
    refine ⟨?_, ?_, ?_, ?_, ?_, ?_, ?_, ?_, ?_, fun p hp ↦ absurd hp List.not_mem_nil⟩
    · exact confused_of_looseEq (.integer 9007199254740993) (.float (.ofInt 9007199254740992))
        (.integer 9007199254740992) (by decide +kernel)
    · exact confused_of_looseEq (.integer 9007199254740993) (.epoch (.ofInt 9007199254740992))
        (.integer 9007199254740992) (by decide +kernel)
    · exact confused_of_looseEq (.float (.ofScientific false 3 (-1)))
        (.decimal (tenths 3 (by decide))) (.float (.ofScientific false 30000000000000004 (-17)))
        (by decide +kernel)
    · exact confused_of_looseEq (.epoch (.ofScientific false 3 (-1)))
        (.decimal (tenths 3 (by decide))) (.epoch (.ofScientific false 30000000000000004 (-17)))
        (by decide +kernel)
    · exact confused_of_looseEq (.dateTime (newYearPlus 0 (by decide)))
        (.epoch (.ofInt 1577836800)) (.dateTime (newYearPlus 1 (by decide))) (by decide +kernel)
    · exact confused_of_looseEq (.string "1") (.decimal (tenths 10 (by decide))) (.string "1.0")
        (by decide +kernel)
    · exact confused_of_looseEq (.string "2020-01-01") (.date newYear) (.string "2020-1-1")
        (by decide +kernel)
    · exact confused_of_looseEq (.string "2020-01-01T00:00:00Z")
        (.dateTime (newYearPlus 0 (by decide))) (.string "2020-01-01T00:00:00") (by decide +kernel)
    · exact confused_of_looseEq (.string "00000000-0000-0000-0000-000000000000") (.uuid ⟨0⟩)
        (.string "00000000000000000000000000000000") (by decide +kernel)
  exact h.elim (hpair (k, l)) fun h ↦ (hpair (l, k) h).symm

/-- Equals of equals are not always equal: the first odd integer that has no float is equal to the
float before it, which is equal to the integer before it. -/
theorem looseEq_not_transitive :
    ¬ ∀ a b c : Value, NaNFree a → NaNFree b → NaNFree c → looseEq a b = true →
      looseEq b c = true → looseEq a c = true := by
  intro h
  have hodd : looseEq (.integer 9007199254740993) (.float (.ofInt 9007199254740992)) = true := by
    decide +kernel
  have heven : looseEq (.float (.ofInt 9007199254740992)) (.integer 9007199254740992) = true := by
    decide +kernel
  have hne : looseEq (.integer 9007199254740993) (.integer 9007199254740992) = false := by
    decide +kernel
  have hall := h _ _ _ (looseEq_self_iff.1 (looseEq_self hodd))
    (looseEq_self_iff.1 (looseEq_self heven))
    (looseEq_self_iff.1 (looseEq_self (looseEq_symm heven))) hodd heven
  rw [hne] at hall
  cases hall

/-- Loose equality is reflexive on the values without `nan` and symmetric. It is transitive unless
two kinds meet that are compared after a lossy conversion, and each pair of such kinds has leaves
without `nan` at which it is not. -/
theorem looseEq_equivalence :
    (∀ a, looseEq a a = true ↔ NaNFree a) ∧
    (∀ a b, looseEq a b = true → looseEq b a = true) ∧
    (∀ a b c, Exact a b → Exact b c → looseEq a b = true → looseEq b c = true →
      looseEq a c = true) ∧
    ∀ k l : Kind, k.Lossy l ↔ k.Confused l :=
  ⟨fun _ ↦ looseEq_self_iff, fun _ _ ↦ looseEq_symm, fun _ _ _ ↦ looseEq_trans,
    fun _ _ ↦ ⟨Kind.Lossy.confused, Kind.Confused.lossy⟩⟩

theorem looseEq_comm (a b : Value) : looseEq b a = looseEq a b :=
  Bool.eq_iff_iff.2 ⟨looseEq_symm, looseEq_symm⟩

/-- Neither side of a comparison is preferred: turning the sides around turns an order around,
leaves what does not compare as it is, and does not matter for the equality of values and of
records. Here `nan` is no exception. -/
theorem comparison_antisymmetric :
    (∀ a b, compare? b a = (compare? a b).map Ordering.swap) ∧
    (∀ a b, compare? b a = none ↔ compare? a b = none) ∧
    (∀ a b, looseEq b a = looseEq a b) ∧
    ∀ r s, Record.looseEq s r = Record.looseEq r s := by
  refine ⟨compare?_swap, fun a b ↦ ?_, looseEq_comm, fun r s ↦ looseEq_comm _ _⟩
  rw [compare?_swap a b, Option.map_eq_none_iff]

end ResourceQuery.Value
