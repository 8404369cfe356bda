import ResourceQuery.Proofs.Value.Parts
import ResourceQuery.Value.Order

/-!
The laws of comparison. Turning the sides around turns the answer around, for all values. Where no
two kinds meet that are compared after a conversion which may lose something, comparison is that of
one kind with itself once integers are taken as decimals and epochs as floats, and each kind is in
a linear order of its own, so that comparison is transitive there.
-/

set_option autoImplicit false

namespace ResourceQuery

open Number (Binary64 Decimal)
open Calendar (Date DateTime)
open Std (TransCmp OrientedCmp ReflCmp)

section Composition

variable {α : Type} {cmp : α → α → Ordering} [TransCmp cmp] {a b c : α}

/-- Two answers other than `gt` compose to the first of them that is not `eq`. -/
theorem compare_then_of_ne_gt (hab : cmp a b ≠ .gt) (hbc : cmp b c ≠ .gt) :
    cmp a c = (cmp a b).then (cmp b c) := by
  rcases h : cmp a b with _ | _ | _
  · rcases h' : cmp b c with _ | _ | _
    · exact TransCmp.lt_trans h h'
    · exact TransCmp.lt_of_lt_of_eq h h'
    · exact absurd h' hbc
  · exact TransCmp.congr_left h
  · exact absurd h hab

end Composition

instance : TransCmp Date.compare :=
  inferInstanceAs (TransCmp (compareOn Date.number))

instance : TransCmp DateTime.compare :=
  inferInstanceAs (TransCmp (compareLex (compareOn DateTime.seconds) (compareOn DateTime.nanos)))

instance : TransCmp Uuid.compare :=
  inferInstanceAs (TransCmp (compareOn fun u : Uuid ↦ u.bits.toNat))

namespace Number

instance : TransCmp Decimal.compare :=
  inferInstanceAs (TransCmp (compareOn Decimal.numerator))

theorem Decimal.numerator_ofInt64 (n : Int64) :
    (Decimal.ofInt64 n).numerator = n.toInt * (Nat.pow 10 28 : Nat) := by
  simp only [numerator, signed, ofInt64, maxScale, decide_eq_true_eq, Nat.sub_zero]
  congr 1
  split <;> omega

theorem Decimal.compare_ofInt64 (m n : Int64) :
    (Decimal.ofInt64 m).compare (Decimal.ofInt64 n) = Ord.compare m.toInt n.toInt := by
  rw [Decimal.compare, numerator_ofInt64, numerator_ofInt64]
  generalize m.toInt = x
  generalize n.toInt = y
  have hpos : (0 : Int) < (Nat.pow 10 28 : Nat) := by decide
  rcases Int.lt_trichotomy x y with h | h | h
  · rw [Int.compare_eq_lt.2 h, Int.compare_eq_lt.2 (Int.mul_lt_mul_of_pos_right h hpos)]
  · rw [Int.compare_eq_eq.2 h, Int.compare_eq_eq.2 (by rw [h])]
  · rw [Int.compare_eq_gt.2 h, Int.compare_eq_gt.2 (Int.mul_lt_mul_of_pos_right h hpos)]

namespace Binary64

/-- The order of ranks. -/
def compareRanks : Int × Int → Int × Int → Ordering :=
  compareLex (compareOn Prod.fst) (compareOn Prod.snd)

instance : TransCmp compareRanks :=
  inferInstanceAs (TransCmp (compareLex _ _))

theorem compare?_eq_some_iff {x y : Binary64} {o : Ordering} :
    x.compare? y = some o ↔ ∃ p q, x.rank? = some p ∧ y.rank? = some q ∧ compareRanks p q = o := by
  cases hx : x.rank? <;> cases hy : y.rank? <;> simp [compare?, hx, hy]
  exact Iff.rfl

theorem compare?_swap (x y : Binary64) : y.compare? x = (x.compare? y).map Ordering.swap := by
  cases hx : x.rank? <;> cases hy : y.rank? <;> simp [compare?, hx, hy]
  exact @OrientedCmp.eq_swap _ compareRanks _ _ _

theorem compare?_trans {x y z : Binary64} {o p : Ordering} (hxy : x.compare? y = some o)
    (hyz : y.compare? z = some p) (ho : o ≠ .gt) (hp : p ≠ .gt) :
    x.compare? z = some (o.then p) := by
  obtain ⟨r, s, hr, hs, rfl⟩ := compare?_eq_some_iff.1 hxy
  obtain ⟨s', t, hs', ht, rfl⟩ := compare?_eq_some_iff.1 hyz
  obtain rfl := Option.some.inj (hs.symm.trans hs')
  exact compare?_eq_some_iff.2 ⟨r, t, hr, ht, compare_then_of_ne_gt ho hp⟩

theorem compare?_self {x : Binary64} : x.compare? x = some .eq ↔ x ≠ .nan := by
  cases x <;> simp [compare?, rank?]

end Binary64

end Number

namespace Value

/-- The kinds of values that have no parts. -/
inductive Kind where
  | null
  | boolean
  | integer
  | float
  | string
  | decimal
  | date
  | dateTime
  | epoch
  | uuid
  deriving DecidableEq

namespace Kind

/-- The pairs of kinds that are compared after a conversion under which different values of one kind
may become the same. -/
def lossyPairs : List (Kind × Kind) :=
  [(.integer, .float), (.integer, .epoch), (.decimal, .float), (.decimal, .epoch),
    (.dateTime, .epoch), (.string, .decimal), (.string, .date), (.string, .dateTime),
    (.string, .uuid)]

def Lossy (k l : Kind) : Prop :=
  (k, l) ∈ lossyPairs ∨ (l, k) ∈ lossyPairs

instance (k l : Kind) : Decidable (Lossy k l) :=
  inferInstanceAs (Decidable (_ ∨ _))

end Kind

def kind? : Value → Option Kind
  | .null => some .null
  | .boolean _ => some .boolean
  | .integer _ => some .integer
  | .float _ => some .float
  | .string _ => some .string
  | .decimal _ => some .decimal
  | .date _ => some .date
  | .dateTime _ => some .dateTime
  | .epoch _ => some .epoch
  | .uuid _ => some .uuid
  | .array _ | .object _ => none

/-- Whether two leaves are of kinds that are compared after a lossy conversion. -/
def MeetLossy (a b : Value) : Prop :=
  ∃ k l, a.kind? = some k ∧ b.kind? = some l ∧ k.Lossy l

/-- Integers as decimals and epochs as floats, which loses nothing. -/
def widen : Value → Value
  | .integer n => .decimal (.ofInt64 n)
  | .epoch x => .float x
  | a => a

def compareSame? : Value → Value → Option Ordering
  | .null, .null => some .eq
  | .boolean a, .boolean b => some (Ord.compare a b)
  | .string a, .string b => some (Ord.compare a b)
  | .decimal a, .decimal b => some (a.compare b)
  | .float a, .float b => a.compare? b
  | .date a, .date b => some (a.compare b)
  | .dateTime a, .dateTime b => some (a.compare b)
  | .uuid a, .uuid b => some (a.compare b)
  | _, _ => none

theorem compareSame?_trans {a b c : Value} {o p : Ordering} (hab : compareSame? a b = some o)
    (hbc : compareSame? b c = some p) (ho : o ≠ .gt) (hp : p ≠ .gt) :
    compareSame? a c = some (o.then p) := by
  cases a <;> cases b <;> first | cases hab | skip
  all_goals cases c <;> first | cases hbc | skip
  case float.float.float => exact Binary64.compare?_trans hab hbc ho hp
  all_goals first | rfl | exact congrArg some (compare_then_of_ne_gt ho hp)

theorem compareLeaves_of_not_meetLossy {a b : Value} (h : ¬ MeetLossy a b) :
    compareLeaves a b = compareSame? a.widen b.widen := by
  cases a <;> cases b
  all_goals first
    | exact absurd ⟨_, _, rfl, rfl, by decide⟩ h
    | simp only [compareLeaves, readLike?, compareAlike, compareNumbers, toBinary64?, widen,
        compareSame?, Option.bind_some, Option.bind_none, Decimal.compare_ofInt64]

theorem compareNumbers_swap (a b : Value) :
    compareNumbers b a = (compareNumbers a b).map Ordering.swap := by
  have hfloats : ∀ x y : Option Binary64, (y.bind fun v ↦ x.bind v.compare?) =
      (x.bind fun u ↦ y.bind u.compare?).map Ordering.swap := by
    intro x y
    cases x <;> cases y <;> try rfl
    exact Binary64.compare?_swap _ _
  cases a <;> cases b
  all_goals simp only [compareNumbers]
  all_goals first
    | exact hfloats _ _
    | exact congrArg some OrientedCmp.eq_swap
    | simp only [Option.map_bind, Function.comp_def, Option.map_map, Ordering.swap_swap,
        Option.map_id']

theorem compareAlike_swap (a b : Value) :
    compareAlike b a = (compareAlike a b).map Ordering.swap := by
  cases a <;> cases b
  case null.null => rfl
  all_goals simp only [compareAlike]
  case epoch.dateTime => exact Binary64.compare?_swap _ _
  case dateTime.epoch => exact Binary64.compare?_swap _ _
  all_goals first
    | exact compareNumbers_swap _ _
    | exact congrArg some OrientedCmp.eq_swap

theorem compareLeaves_swap (a b : Value) :
    compareLeaves b a = (compareLeaves a b).map Ordering.swap := by
  cases a <;> cases b
  case string.string =>
    simp only [compareLeaves, readLike?, Option.bind_some]
    exact compareAlike_swap _ _
  all_goals simp only [compareLeaves]
  all_goals first
    | exact compareAlike_swap _ _
    | simp only [Option.map_bind, Function.comp_def, ← compareAlike_swap]

theorem compareLeaves_eq_none_left {a : Value} (h : a.kind? = none) (b : Value) :
    compareLeaves a b = none := by
  cases a <;> cases h <;> cases b <;> rfl

theorem compareLeaves_eq_none_right {b : Value} (h : b.kind? = none) (a : Value) :
    compareLeaves a b = none := by
  rw [compareLeaves_swap, compareLeaves_eq_none_left h]
  rfl

theorem exists_kind_of_compareLeaves {a b : Value} {o : Ordering} (h : compareLeaves a b = some o) :
    (∃ k, a.kind? = some k) ∧ ∃ l, b.kind? = some l := by
  refine ⟨Option.ne_none_iff_exists'.1 fun hnone ↦ ?_, Option.ne_none_iff_exists'.1 fun hnone ↦ ?_⟩
  · rw [compareLeaves_eq_none_left hnone] at h
    cases h
  · rw [compareLeaves_eq_none_right hnone] at h
    cases h

/-- Comparison of anything but two arrays. -/
theorem compare?_eq_compareLeaves {a b : Value} (h : ∀ xs ys, a = .array xs → b ≠ .array ys) :
    compare? a b = compareLeaves a b := by
  cases a with
  | array xs =>
    rw [compareLeaves_eq_none_left rfl]
    cases b with
    | array ys => exact absurd rfl (h xs ys rfl)
    | _ => rw [compare?]; exact fun _ ↦ Value.noConfusion
  | _ => rw [compare?]; exact fun _ ↦ Value.noConfusion

theorem compareItems?_swap {xs : List Value}
    (h : ∀ x ∈ xs, ∀ y, compare? y x = (compare? x y).map Ordering.swap) (ys : List Value) :
    compareItems? ys xs = (compareItems? xs ys).map Ordering.swap := by
  induction xs generalizing ys with
  | nil => cases ys <;> rfl
  | cons x xs ih =>
    cases ys with
    | nil => rfl
    | cons y ys =>
      have hrest := ih (fun x' hx' ↦ h x' (List.mem_cons_of_mem _ hx')) ys
      rw [compareItems?, compareItems?, h x List.mem_cons_self, hrest]
      rcases compare? x y with _ | _ | _ | _ <;> rfl

/-- Turning the sides around turns the answer around. -/
theorem compare?_swap (a b : Value) : compare? b a = (compare? a b).map Ordering.swap := by
  induction a using induction_parts generalizing b with
  | h a ih =>
    by_cases harrays : ∃ xs ys, a = .array xs ∧ b = .array ys
    · obtain ⟨xs, ys, rfl, rfl⟩ := harrays
      simp only [compare?]
      refine compareItems?_swap (fun x hx y ↦ ?_) ys
      obtain ⟨i, hi⟩ := List.getElem?_of_mem hx
      exact ih (.item i) x hi y
    · rw [compare?_eq_compareLeaves fun xs ys ha hb ↦ harrays ⟨xs, ys, ha, hb⟩,
        compare?_eq_compareLeaves fun ys xs hb ha ↦ harrays ⟨xs, ys, ha, hb⟩]
      exact compareLeaves_swap a b

/-- Whether two values bring together no two kinds, at any common place within them, that are
compared after a lossy conversion. -/
def Exact (a b : Value) : Prop :=
  ∀ path x y, at? path a = some x → at? path b = some y → ¬ MeetLossy x y

theorem Exact.not_meetLossy {a b : Value} (h : Exact a b) : ¬ MeetLossy a b :=
  h [] a b rfl rfl

theorem Exact.part {a b x y : Value} (h : Exact a b) (step : Step) (hx : part? step a = some x)
    (hy : part? step b = some y) : Exact x y := by
  intro path u v hu hv
  refine h (step :: path) u v ?_ ?_
  · rw [at?, hx]
    exact hu
  · rw [at?, hy]
    exact hv

theorem not_meetLossy_of_compareSame? {a b : Value} {o : Ordering}
    (h : compareSame? a.widen b.widen = some o) : ¬ MeetLossy a b := by
  rintro ⟨k, l, hk, hl, hlossy⟩
  cases a <;> cases hk <;> cases b <;> cases hl
  all_goals first
    | exact absurd hlossy (by decide)
    | cases h

theorem compareLeaves_trans {a b c : Value} {o p : Ordering} (hab : ¬ MeetLossy a b)
    (hbc : ¬ MeetLossy b c) (ho : compareLeaves a b = some o) (hp : compareLeaves b c = some p)
    (hogt : o ≠ .gt) (hpgt : p ≠ .gt) : compareLeaves a c = some (o.then p) := by
  rw [compareLeaves_of_not_meetLossy hab] at ho
  rw [compareLeaves_of_not_meetLossy hbc] at hp
  have hac := compareSame?_trans ho hp hogt hpgt
  rwa [compareLeaves_of_not_meetLossy (not_meetLossy_of_compareSame? hac)]

theorem compareItems?_cons (x y : Value) (xs ys : List Value) :
    compareItems? (x :: xs) (y :: ys) =
      (compare? x y).bind fun o ↦ if o = .eq then compareItems? xs ys else some o := by
  rw [compareItems?]
  rcases compare? x y with _ | _ | _ | _ <;> rfl

theorem compareItems?_trans {xs ys zs : List Value} {o p : Ordering}
    (h : ∀ (i : Nat) (x y z : Value), xs[i]? = some x → ys[i]? = some y → zs[i]? = some z →
      ∀ o p, compare? x y = some o → compare? y z = some p → o ≠ .gt → p ≠ .gt →
        compare? x z = some (o.then p))
    (ho : compareItems? xs ys = some o) (hp : compareItems? ys zs = some p) (hogt : o ≠ .gt)
    (hpgt : p ≠ .gt) : compareItems? xs zs = some (o.then p) := by
  induction xs generalizing ys zs o p with
  | nil =>
    cases ys with
    | nil =>
      obtain rfl := Option.some.inj ho
      exact hp
    | cons y ys =>
      obtain rfl := Option.some.inj ho
      cases zs with
      | nil => exact absurd (Option.some.inj hp).symm hpgt
      | cons z zs => rfl
  | cons x xs ih =>
    cases ys with
    | nil => exact absurd (Option.some.inj ho).symm hogt
    | cons y ys =>
      cases zs with
      | nil => exact absurd (Option.some.inj hp).symm hpgt
      | cons z zs =>
        rw [compareItems?_cons] at ho hp ⊢
        obtain ⟨o₁, hxy, ho⟩ := Option.bind_eq_some_iff.1 ho
        obtain ⟨p₁, hyz, hp⟩ := Option.bind_eq_some_iff.1 hp
        have hfirst := h 0 x y z rfl rfl rfl o₁ p₁ hxy hyz
        have hp₁ : p₁ ≠ .gt := by
          rintro rfl
          exact hpgt (Option.some.inj hp).symm
        cases o₁ with
        | lt =>
          obtain rfl := Option.some.inj ho
          rw [hfirst hogt hp₁]
          rfl
        | eq =>
          rw [hfirst (by decide) hp₁]
          cases p₁ with
          | lt =>
            obtain rfl := Option.some.inj hp
            cases o <;> first | rfl | exact absurd rfl hogt
          | eq => exact ih (fun i x y z ↦ h (i + 1) x y z) ho hp hogt hpgt
          | gt => exact absurd rfl hp₁
        | gt => exact absurd (Option.some.inj ho).symm hogt

/-- Comparison is transitive where it is exact. -/
theorem compare?_trans {a b c : Value} {o p : Ordering} (hab : Exact a b) (hbc : Exact b c)
    (ho : compare? a b = some o) (hp : compare? b c = some p) (hogt : o ≠ .gt) (hpgt : p ≠ .gt) :
    compare? a c = some (o.then p) := by
  induction a using induction_parts generalizing b c o p with
  | h a ih =>
    by_cases harrays : ∃ xs ys, a = .array xs ∧ b = .array ys
    · obtain ⟨xs, ys, rfl, rfl⟩ := harrays
      by_cases harray : ∃ zs, c = .array zs
      · obtain ⟨zs, rfl⟩ := harray
        rw [compare?] at ho hp ⊢
        refine compareItems?_trans (fun i x y z hx hy hz o p ↦ ?_) ho hp hogt hpgt
        exact ih (.item i) x hx (hab.part (.item i) hx hy) (hbc.part (.item i) hy hz)
      · rw [compare?_eq_compareLeaves fun _ zs _ hc ↦ harray ⟨zs, hc⟩,
          compareLeaves_eq_none_left rfl] at hp
        cases hp
    · rw [compare?_eq_compareLeaves fun xs ys ha hb ↦ harrays ⟨xs, ys, ha, hb⟩] at ho
      have hb : ∀ ys, b ≠ .array ys := by
        rintro ys rfl
        rw [compareLeaves_eq_none_right rfl] at ho
        cases ho
      have ha : ∀ xs, a ≠ .array xs := by
        rintro xs rfl
        rw [compareLeaves_eq_none_left rfl] at ho
        cases ho
      rw [compare?_eq_compareLeaves fun ys _ h _ ↦ hb ys h] at hp
      rw [compare?_eq_compareLeaves fun xs _ h _ ↦ ha xs h]
      exact compareLeaves_trans hab.not_meetLossy hbc.not_meetLossy ho hp hogt hpgt

theorem Kind.not_lossy_self (k : Kind) : ¬ Lossy k k := by
  cases k <;> decide

theorem not_meetLossy_self (a : Value) : ¬ MeetLossy a a := by
  rintro ⟨k, l, hk, hl, h⟩
  obtain rfl := Option.some.inj (hk.symm.trans hl)
  exact k.not_lossy_self h

theorem compareLeaves_self_iff {a : Value} {k : Kind} (h : a.kind? = some k) :
    compareLeaves a a = some .eq ↔ a ≠ .float .nan ∧ a ≠ .epoch .nan := by
  rw [compareLeaves_of_not_meetLossy (not_meetLossy_self a)]
  cases a with
  | array xs => cases h
  | object r => cases h
  | float x => simp [widen, compareSame?, Binary64.compare?_self]
  | epoch x => simp [widen, compareSame?, Binary64.compare?_self]
  | _ => simp [widen, compareSame?, ReflCmp.compare_self]

theorem compareLeaves_nan {a : Value} (h : a = .float .nan ∨ a = .epoch .nan) (b : Value) :
    compareLeaves a b = none := by
  have hleft : ∀ x : Binary64, Binary64.nan.compare? x = none := fun _ ↦ rfl
  have hright : ∀ x : Binary64, x.compare? Binary64.nan = none := by
    intro x
    rw [Binary64.compare?_swap]
    rfl
  rcases h with rfl | rfl <;> cases b
  all_goals simp [compareLeaves, readLike?, compareAlike, compareNumbers, toBinary64?,
    compareDecimalFloat, Decimal.ofBinary64?, hleft, hright]

theorem compareLeaves_self {a b : Value} {o : Ordering} (h : compareLeaves a b = some o) :
    compareLeaves a a = some .eq := by
  obtain ⟨k, hk⟩ := (exists_kind_of_compareLeaves h).1
  refine (compareLeaves_self_iff hk).2 ⟨fun heq ↦ ?_, fun heq ↦ ?_⟩
  · rw [compareLeaves_nan (.inl heq)] at h
    cases h
  · rw [compareLeaves_nan (.inr heq)] at h
    cases h

theorem compareItems?_self {xs ys : List Value}
    (h : ∀ x ∈ xs, ∀ y, compare? x y = some .eq → compare? x x = some .eq)
    (heq : compareItems? xs ys = some .eq) : compareItems? xs xs = some .eq := by
  induction xs generalizing ys with
  | nil => rfl
  | cons x xs ih =>
    cases ys with
    | nil => cases heq
    | cons y ys =>
      rw [compareItems?_cons] at heq ⊢
      obtain ⟨o, hfirst, hrest⟩ := Option.bind_eq_some_iff.1 heq
      cases o with
      | eq =>
        rw [h x List.mem_cons_self y hfirst]
        exact ih (fun x' hx' ↦ h x' (List.mem_cons_of_mem _ hx')) hrest
      | lt => cases hrest
      | gt => cases hrest

/-- What compares equal to something compares equal to itself. -/
theorem compare?_self {a b : Value} (h : compare? a b = some .eq) : compare? a a = some .eq := by
  induction a using induction_parts generalizing b with
  | h a ih =>
    by_cases harrays : ∃ xs ys, a = .array xs ∧ b = .array ys
    · obtain ⟨xs, ys, rfl, rfl⟩ := harrays
      rw [compare?] at h ⊢
      refine compareItems?_self (fun x hx y hy ↦ ?_) h
      obtain ⟨i, hi⟩ := List.getElem?_of_mem hx
      exact ih (.item i) x hi hy
    · rw [compare?_eq_compareLeaves fun xs ys ha hb ↦ harrays ⟨xs, ys, ha, hb⟩] at h
      rw [compare?_eq_compareLeaves, compareLeaves_self h]
      rintro xs _ rfl
      rw [compareLeaves_eq_none_left rfl] at h
      cases h

end Value

end ResourceQuery
