import Mathlib.Algebra.BigOperators.Ring.List
import Mathlib.Algebra.Order.BigOperators.Group.List
import Mathlib.Data.List.Infix
import Mathlib.Data.List.Sublists
import ResourceQuery.Proofs.Number.ExactAddition
import ResourceQuery.Proofs.Pipeline.SumKind

/-!
When a sum is exact. Integers are added up as integers for as long as the running total keeps within
sixty-four bits. Where it leaves them, even if it would come back, the sum goes on as a float and
stays one. Decimals are added exactly whenever their total can be shown by a decimal, so that the
integers in front of the first decimal are all that can spoil such a sum. A mean is exact if the sum
is.
-/

set_option autoImplicit false

namespace ResourceQuery

namespace Number

/-- Whether sixty-four bits with a sign can hold a number. -/
def IsInt64 (z : Int) : Prop :=
  Int64.minValue.toInt ≤ z ∧ z ≤ Int64.maxValue.toInt

instance (z : Int) : Decidable (IsInt64 z) :=
  inferInstanceAs (Decidable (_ ∧ _))

theorem isInt64_toInt (n : Int64) : IsInt64 n.toInt :=
  ⟨Int64.le_toInt n, Int.le_of_lt_add_one (Int64.toInt_lt n)⟩

theorem exists_int64 {z : Int} (h : IsInt64 z) : ∃ n, int64? z = some n ∧ n.toInt = z :=
  ⟨Int64.ofInt z, if_pos h, toInt_of_int64? (if_pos h)⟩

theorem int64?_of_not {z : Int} (h : ¬ IsInt64 z) : int64? z = none :=
  if_neg h

end Number

namespace Reduce

open Number (Decimal IsInt64 exists_int64 int64?_of_not isInt64_toInt)

section Integers

variable {ns part other : List Int64}

def integerTotal (ns : List Int64) : Int :=
  (ns.map Int64.toInt).sum

/-- Whether all running totals of integers keep within sixty-four bits. -/
def StaysInRange (ns : List Int64) : Prop :=
  ∀ part, part <+: ns → IsInt64 (integerTotal part)

instance (ns : List Int64) : Decidable (StaysInRange ns) :=
  decidable_of_iff (∀ part ∈ ns.inits, IsInt64 (integerTotal part)) (by simp [StaysInRange])

theorem integerTotal_append_singleton (ns : List Int64) (n : Int64) :
    integerTotal (ns ++ [n]) = integerTotal ns + n.toInt := by
  simp [integerTotal]

theorem integerTotal_perm (h : other.Perm ns) : integerTotal other = integerTotal ns :=
  (h.map Int64.toInt).sum_eq

theorem staysInRange_append_singleton {n : Int64} :
    StaysInRange (ns ++ [n]) ↔ StaysInRange ns ∧ IsInt64 (integerTotal ns + n.toInt) := by
  rw [← integerTotal_append_singleton]
  constructor
  · intro h
    exact ⟨fun part hpart ↦ h part (hpart.trans (List.prefix_append ns [n])),
      h _ (List.prefix_refl _)⟩
  · rintro ⟨hns, hall⟩ part hpart
    obtain rfl | hpart := List.prefix_concat_iff.1 hpart
    · exact hall
    · exact hns part hpart

theorem sum_of_staysInRange (h : StaysInRange ns) :
    ∃ n, sum (ns.map .integer) = .ok (.integer n) ∧ n.toInt = integerTotal ns := by
  induction ns using List.reverseRecOn with
  | nil => exact ⟨0, rfl, rfl⟩
  | append_singleton ns n ih =>
    obtain ⟨hns, hall⟩ := staysInRange_append_singleton.1 h
    obtain ⟨m, hm, htotal⟩ := ih hns
    obtain ⟨k, hk, hvalue⟩ := exists_int64 hall
    refine ⟨k, ?_, hvalue.trans (integerTotal_append_singleton ns n).symm⟩
    rw [List.map_append, List.map_singleton, sum_append_singleton, hm, ok_bind, add_integers,
      Number.add?, htotal, hk]

/-- Once a running total is out of range the sum is a float, and what is added later to a float
makes a float again. -/
theorem sum_of_not_staysInRange (h : ¬ StaysInRange ns) :
    ∃ x, sum (ns.map .integer) = .ok (.float x) := by
  induction ns using List.reverseRecOn with
  | nil =>
    refine absurd (fun part hpart ↦ ?_) h
    rw [List.prefix_nil.1 hpart]
    exact isInt64_toInt 0
  | append_singleton ns n ih =>
    rw [List.map_append, List.map_singleton, sum_append_singleton]
    by_cases hns : StaysInRange ns
    · obtain ⟨m, hm, htotal⟩ := sum_of_staysInRange hns
      have hall : ¬ IsInt64 (integerTotal ns + n.toInt) :=
        fun hall ↦ h (staysInRange_append_singleton.2 ⟨hns, hall⟩)
      rw [hm, ok_bind, add_integers, Number.add?, htotal, int64?_of_not hall]
      exact ⟨_, rfl⟩
    · obtain ⟨x, hx⟩ := ih hns
      rw [hx]
      exact ⟨_, rfl⟩

theorem exists_sum_integer_iff :
    (∃ n, sum (ns.map .integer) = .ok (.integer n) ∧ n.toInt = integerTotal ns) ↔
      StaysInRange ns := by
  constructor
  · rintro ⟨n, hn, -⟩
    by_contra h
    obtain ⟨x, hx⟩ := sum_of_not_staysInRange h
    cases hn.symm.trans hx
  · exact sum_of_staysInRange

def gains (ns : List Int64) : List Int64 :=
  ns.filter fun n ↦ 0 < n.toInt

def losses (ns : List Int64) : List Int64 :=
  ns.filter fun n ↦ n.toInt < 0

/-- Some of the integers add up to no less than all losses and to no more than all gains. -/
theorem integerTotal_bounds (h : part.Sublist ns) :
    integerTotal (losses ns) ≤ integerTotal part ∧
      integerTotal part ≤ integerTotal (gains ns) := by
  induction h with
  | slnil => simp [losses, gains]
  | @cons part ns n _ ih =>
    simp only [integerTotal, losses, gains, List.filter_cons] at ih ⊢
    constructor <;> split <;> simp_all <;> omega
  | @cons_cons part ns n _ ih =>
    simp only [integerTotal, losses, gains, List.filter_cons] at ih ⊢
    constructor <;> split <;> simp_all <;> omega

/-- Integers stay in range in every order exactly if their gains and their losses alone do. -/
theorem forall_perm_staysInRange_iff :
    (∀ other : List Int64, other.Perm ns → StaysInRange other) ↔
      IsInt64 (integerTotal (gains ns)) ∧ IsInt64 (integerTotal (losses ns)) := by
  constructor
  · intro h
    -- with all gains first the running total climbs as high as it can, and likewise for losses
    exact ⟨h _ (List.filter_append_perm _ ns) _ (List.prefix_append _ _),
      h _ (List.filter_append_perm _ ns) _ (List.prefix_append _ _)⟩
  · rintro ⟨hgains, hlosses⟩ other hperm part hpart
    obtain ⟨hlow, hhigh⟩ := integerTotal_bounds hpart.sublist
    rw [losses, integerTotal_perm (hperm.filter _)] at hlow
    rw [gains, integerTotal_perm (hperm.filter _)] at hhigh
    exact ⟨hlosses.1.trans hlow, hhigh.trans hgains.2⟩

end Integers

/-- A number that is kept exactly. -/
inductive Amount where
  | integer (n : Int64)
  | decimal (d : Decimal)

namespace Amount

def toValue : Amount → Value
  | .integer n => .integer n
  | .decimal d => .decimal d

def toDecimal : Amount → Decimal
  | .integer n => .ofInt64 n
  | .decimal d => d

/-- The exact total of amounts in the smallest unit of a decimal. -/
def total (amounts : List Amount) : Int :=
  (amounts.map fun a ↦ a.toDecimal.numerator).sum

/-- The integers that come before any decimal. -/
def leadingIntegers : List Amount → List Int64
  | .integer n :: rest => n :: leadingIntegers rest
  | _ => []

/-- Whether the sum of amounts is their exact total when it is taken as a decimal. -/
def SumsExactly (amounts : List Amount) : Prop :=
  ∃ v d, sum (amounts.map toValue) = .ok v ∧ Reduce.toDecimal v = .ok d ∧
    d.numerator = total amounts

variable {amounts other : List Amount}

theorem isNumeric_toValue (a : Amount) : a.toValue.isNumeric = true := by
  cases a <;> rfl

theorem toDecimal_toValue (a : Amount) : Reduce.toDecimal a.toValue = .ok a.toDecimal := by
  cases a <;> rfl

theorem total_append_singleton (amounts : List Amount) (a : Amount) :
    total (amounts ++ [a]) = total amounts + a.toDecimal.numerator := by
  simp [total]

theorem total_perm (h : other.Perm amounts) : total other = total amounts :=
  (h.map _).sum_eq

theorem total_integers (ns : List Int64) :
    total (ns.map .integer) = integerTotal ns * (Nat.pow 10 28 : Nat) := by
  rw [total, integerTotal, List.map_map, ← List.sum_map_mul_right]
  simp [Function.comp_def, toDecimal, Decimal.numerator_ofInt64]

theorem sumsExactly_integers {ns : List Int64} (h : StaysInRange ns) :
    SumsExactly (ns.map .integer) := by
  obtain ⟨n, hn, htotal⟩ := sum_of_staysInRange h
  refine ⟨.integer n, .ofInt64 n, ?_, rfl, ?_⟩
  · rw [List.map_map]
    exact hn
  · rw [Decimal.numerator_ofInt64, htotal, total_integers]

theorem leadingIntegers_append (h : ∃ d, .decimal d ∈ amounts) (rest : List Amount) :
    leadingIntegers (amounts ++ rest) = leadingIntegers amounts := by
  obtain ⟨d, hd⟩ := h
  induction amounts with
  | nil => cases hd
  | cons a amounts ih =>
    cases a with
    | integer n =>
      have hd' : .decimal d ∈ amounts := by simpa using hd
      rw [List.cons_append, leadingIntegers, leadingIntegers, ih hd']
    | decimal e => rfl

theorem leadingIntegers_of_not (h : ¬ ∃ d, .decimal d ∈ amounts) (e : Decimal) :
    (leadingIntegers (amounts ++ [.decimal e])).map .integer = amounts := by
  induction amounts with
  | nil => rfl
  | cons a amounts ih =>
    cases a with
    | integer n =>
      rw [List.cons_append, leadingIntegers, List.map_cons,
        ih fun ⟨d, hd⟩ ↦ h ⟨d, List.mem_cons_of_mem _ hd⟩]
    | decimal d => exact absurd ⟨d, List.mem_cons_self⟩ h

/-- An amount is added exactly to what is taken as a decimal, if a decimal can show the result. -/
theorem addDecimals_exact {v : Value} {d : Decimal} (hv : Reduce.toDecimal v = .ok d) (a : Amount)
    (hshown : ∃ e : Decimal, e.numerator = d.numerator + a.toDecimal.numerator) :
    ∃ e, addDecimals v a.toValue = .ok (.decimal e) ∧
      e.numerator = d.numerator + a.toDecimal.numerator := by
  obtain ⟨e, he, hvalue⟩ := Decimal.add?_exact hshown
  refine ⟨e, ?_, hvalue⟩
  rw [addDecimals, hv, ok_bind, toDecimal_toValue, ok_bind, he]
  rfl

/-- A sum with a decimal in it is exact if decimals can show the running totals, and if the integers
that come before any decimal are summed exactly. -/
theorem sum_of_decimal (hdecimal : ∃ d, .decimal d ∈ amounts)
    (hshown : ∀ part, part <+: amounts → ∃ d : Decimal, d.numerator = total part)
    (hleading : SumsExactly ((leadingIntegers amounts).map .integer)) :
    ∃ d, sum (amounts.map toValue) = .ok (.decimal d) ∧ d.numerator = total amounts := by
  induction amounts using List.reverseRecOn with
  | nil => simp at hdecimal
  | append_singleton amounts a ih =>
    have hprefix := List.prefix_append amounts [a]
    have hall := hshown _ (List.prefix_refl _)
    rw [total_append_singleton] at hall ⊢
    rw [List.map_append, List.map_singleton, sum_append_singleton]
    -- before the first decimal the sum need not be a decimal, nor exact but for `hleading`
    by_cases hbefore : ∃ d, .decimal d ∈ amounts
    · rw [leadingIntegers_append hbefore] at hleading
      obtain ⟨d, hd, htotal⟩ :=
        ih hbefore (fun part hpart ↦ hshown part (hpart.trans hprefix)) hleading
      rw [hd, ok_bind, add_of_decimal a.isNumeric_toValue (.inl rfl), ← htotal]
      rw [← htotal] at hall
      exact addDecimals_exact rfl a hall
    · cases a with
      | integer n => exact absurd (by simpa using hdecimal) hbefore
      | decimal e =>
        rw [leadingIntegers_of_not hbefore] at hleading
        obtain ⟨v, d, hv, hd, htotal⟩ := hleading
        rw [hv, ok_bind, add_of_decimal (isNumeric_toValue (.decimal e)) (.inr rfl), ← htotal]
        rw [← htotal] at hall
        exact addDecimals_exact hd (.decimal e) hall

/-- Whether decimals can show all choices of amounts can be found out choice by choice. -/
theorem shown_of_sublists (scale : Nat)
    (h : ∀ part ∈ amounts.sublists,
      (Decimal.make? (total part < 0) ((total part).natAbs / 10 ^ (Decimal.maxScale - scale))
        scale).map Decimal.numerator = some (total part))
    (part : List Amount) (hpart : part.Sublist amounts) :
    ∃ d : Decimal, d.numerator = total part := by
  obtain ⟨d, -, hd⟩ := Option.map_eq_some_iff.1 (h part (List.mem_sublists.2 hpart))
  exact ⟨d, hd⟩

end Amount

open Amount (SumsExactly toValue)

/-- How exact the sums of integers, and of integers and decimals, are. Integers of which all running
totals are in range have their total for their sum; others have a float. They have their total in
every order exactly if their gains and their losses alone are in range. Amounts with a decimal among
them, of which any that are chosen have a total that a decimal can show, have a decimal equal to
their total for their sum, in every order in which the integers that come before any decimal are
summed exactly, as they are where their running totals are in range. -/
theorem sum_exact :
    (∀ ns : List Int64,
      (StaysInRange ns →
        ∃ n, sum (ns.map .integer) = .ok (.integer n) ∧ n.toInt = integerTotal ns) ∧
      (¬ StaysInRange ns → ∃ x, sum (ns.map .integer) = .ok (.float x)) ∧
      ((∀ other : List Int64, other.Perm ns →
          ∃ n, sum (other.map .integer) = .ok (.integer n) ∧ n.toInt = integerTotal ns) ↔
        IsInt64 (integerTotal (gains ns)) ∧ IsInt64 (integerTotal (losses ns))) ∧
      (StaysInRange ns → SumsExactly (ns.map .integer))) ∧
    ∀ amounts other : List Amount, (∃ d, .decimal d ∈ amounts) →
      (∀ part : List Amount, part.Sublist amounts →
        ∃ d : Decimal, d.numerator = Amount.total part) →
      other.Perm amounts →
      SumsExactly ((Amount.leadingIntegers other).map .integer) →
      ∃ d, sum (other.map toValue) = .ok (.decimal d) ∧ d.numerator = Amount.total amounts := by
  refine ⟨fun ns ↦ ⟨sum_of_staysInRange, sum_of_not_staysInRange, ?_,
    Amount.sumsExactly_integers⟩, ?_⟩
  · rw [← forall_perm_staysInRange_iff]
    refine forall₂_congr fun other hperm ↦ ?_
    rw [← integerTotal_perm hperm]
    exact exists_sum_integer_iff
  · rintro amounts other ⟨d, hd⟩ hshown hperm hleading
    rw [← Amount.total_perm hperm]
    refine Amount.sum_of_decimal ⟨d, hperm.mem_iff.2 hd⟩ (fun part hpart ↦ ?_) hleading
    obtain ⟨chosen, hchosen, hsublist⟩ := List.exists_perm_sublist hpart.sublist hperm
    rw [← Amount.total_perm hchosen]
    exact hshown chosen hsublist

/-- A debt is taken off a price in another order than the one in which they are listed. -/
theorem sum_exact_of_prices :
    let price : Decimal := ⟨false, 10, 2, by decide, by decide⟩
    let debt : Decimal := ⟨true, 105, 2, by decide, by decide⟩
    let amounts : List Amount := [.decimal price, .integer 3, .decimal debt]
    let other : List Amount := [.integer 3, .decimal debt, .decimal price]
    other.Perm amounts ∧
      (∀ part : List Amount, part.Sublist amounts →
        ∃ d : Decimal, d.numerator = Amount.total part) ∧
      ∃ d, sum (other.map toValue) = .ok (.decimal d) ∧ d.numerator = Amount.total amounts := by
  intro price debt amounts other
  have hperm : other.Perm amounts :=
    @List.perm_append_comm Amount [.integer 3, .decimal debt] [.decimal price]
  have hshown := @Amount.shown_of_sublists amounts 2 (by decide +kernel)
  have hleading : SumsExactly ((Amount.leadingIntegers other).map .integer) :=
    @Amount.sumsExactly_integers [3] (by decide)
  exact ⟨hperm, hshown,
    sum_exact.2 amounts other ⟨price, List.mem_cons_self⟩ hshown hperm hleading⟩

/-- A total within the range of integers is not enough, and neither is one that a decimal can show:
on the way to it the sum can become a float. -/
theorem sum_not_exact :
    (¬ ∀ ns : List Int64, IsInt64 (integerTotal ns) →
      ∃ n, sum (ns.map .integer) = .ok (.integer n) ∧ n.toInt = integerTotal ns) ∧
    ¬ ∀ amounts : List Amount, (∃ d, .decimal d ∈ amounts) →
      (∀ part : List Amount, part.Sublist amounts →
        ∃ d : Decimal, d.numerator = Amount.total part) →
      ∃ d, sum (amounts.map toValue) = .ok (.decimal d) ∧ d.numerator = Amount.total amounts := by
  constructor
  · intro h
    have hrange : ¬ StaysInRange [Int64.maxValue, 1, -1] := by decide
    exact hrange (exists_sum_integer_iff.1 (h [Int64.maxValue, 1, -1] (by decide)))
  · intro h
    let amounts : List Amount := [.integer Int64.maxValue, .integer Int64.maxValue, .decimal .zero]
    let rounded : Decimal := ⟨false, 18446744073709551616, 0, by decide, by decide⟩
    obtain ⟨x, hx, hread⟩ : ∃ x,
        sum [.integer Int64.maxValue, .integer Int64.maxValue] = .ok (.float x) ∧
          Decimal.ofBinary64? x = some rounded := ⟨_, rfl, by decide +kernel⟩
    have hrounded : toDecimal (.float x) = .ok rounded := by
      simp only [toDecimal, hread]
    have hsum : sum (amounts.map toValue) = .ok (.decimal rounded) := by
      calc
        sum (amounts.map toValue)
        _ = sum [.integer Int64.maxValue, .integer Int64.maxValue] >>=
            fun total ↦ add total (.decimal .zero) :=
          sum_append_singleton [.integer Int64.maxValue, .integer Int64.maxValue] (.decimal .zero)
        _ = addDecimals (.float x) (.decimal .zero) := by
          rw [hx, ok_bind, add_of_decimal rfl (.inr rfl)]
        _ = .ok (.decimal rounded) := by
          rw [addDecimals, hrounded]
          rfl
    obtain ⟨d, hd, htotal⟩ := h amounts ⟨.zero, by simp [amounts]⟩
      (Amount.shown_of_sublists 0 (by decide +kernel))
    cases hsum.symm.trans hd
    revert htotal
    decide +kernel

section Mean

variable {values : List Value} {ns : List Int64}

theorem mean_of_ne_nil (h : values ≠ []) :
    mean values = sum values >>= fun total ↦ divide total values.length :=
  if_neg (mt List.isEmpty_iff.1 h)

theorem divide_integer {n q : Int64} {length : Nat} (hpos : 0 < length)
    (h : q.toInt * length = n.toInt) : divide (.integer n) length = .ok (.integer q) := by
  have hlength : (length : Int) ≠ 0 := by omega
  rw [divide, ← h, if_pos (Int.mul_emod_left _ _), Int.mul_ediv_cancel _ hlength,
    Int64.ofInt_toInt]

/-- A mean has an integer on either side of it. -/
theorem integerTotal_between {q : Int} (hne : ns ≠ []) (h : q * ns.length = integerTotal ns) :
    (∃ m ∈ ns, m.toInt ≤ q) ∧ ∃ n ∈ ns, q ≤ n.toInt := by
  have hconst : (ns.map fun _ ↦ q).sum = (ns.map Int64.toInt).sum := by
    rw [List.map_const', List.sum_replicate, nsmul_eq_mul, Int.mul_comm]
    exact h
  exact ⟨List.exists_le_of_sum_le hne _ _ hconst.ge, List.exists_le_of_sum_le hne _ _ hconst.le⟩

/-- What the mean of integers is where their total can be divided by their number. The quotient is
an integer within the range, since it has one of them on either side. It is the mean if all running
totals are in range; otherwise the mean is a float. -/
theorem mean_exact (hne : ns ≠ []) (hdvd : (ns.length : Int) ∣ integerTotal ns) :
    ∃ q : Int64, q.toInt * ns.length = integerTotal ns ∧
      (∃ m ∈ ns, m.toInt ≤ q.toInt) ∧ (∃ n ∈ ns, q.toInt ≤ n.toInt) ∧
      (StaysInRange ns → mean (ns.map .integer) = .ok (.integer q)) ∧
      (¬ StaysInRange ns → ∃ x, mean (ns.map .integer) = .ok (.float x)) := by
  obtain ⟨z, hz⟩ := hdvd
  rw [Int.mul_comm] at hz
  obtain ⟨⟨m, hm, hmz⟩, n, hn, hzn⟩ := integerTotal_between hne hz.symm
  obtain ⟨q, -, rfl⟩ :=
    exists_int64 ⟨(isInt64_toInt m).1.trans hmz, hzn.trans (isInt64_toInt n).2⟩
  have hmean : mean (ns.map .integer) =
      sum (ns.map .integer) >>= fun total ↦ divide total ns.length := by
    rw [mean_of_ne_nil (by simpa using hne), List.length_map]
  refine ⟨q, hz.symm, ⟨m, hm, hmz⟩, ⟨n, hn, hzn⟩, fun h ↦ ?_, fun h ↦ ?_⟩
  · obtain ⟨total, hsum, htotal⟩ := sum_of_staysInRange h
    rw [hmean, hsum, ok_bind]
    exact divide_integer (List.length_pos_iff.2 hne) (by rw [htotal, hz])
  · obtain ⟨x, hsum⟩ := sum_of_not_staysInRange h
    rw [hmean, hsum]
    exact ⟨_, rfl⟩

theorem mean_exact_of_largest :
    ([Int64.maxValue, -3, 2] : List Int64) ≠ [] ∧
      ((3 : Nat) : Int) ∣ integerTotal [Int64.maxValue, -3, 2] ∧
      mean ([Int64.maxValue, -3, 2].map .integer) = .ok (.integer 3074457345618258602) := by
  have hne : ([Int64.maxValue, -3, 2] : List Int64) ≠ [] := by decide
  have hdvd : ((3 : Nat) : Int) ∣ integerTotal [Int64.maxValue, -3, 2] := by decide
  obtain ⟨q, hq, -, -, hmean, -⟩ := mean_exact hne hdvd
  have htotal : integerTotal [Int64.maxValue, -3, 2] = 3074457345618258602 * 3 := by decide
  have hvalue : q = 3074457345618258602 := by
    apply Int64.toInt_inj.1
    rw [htotal] at hq
    exact Int.eq_of_mul_eq_mul_right (by decide) hq
  exact ⟨hne, hdvd, hvalue ▸ hmean (by decide)⟩

/-- The mean of the largest integer and itself is not that integer, because their total is out of
range. -/
theorem mean_not_exact :
    ¬ ∀ ns : List Int64, ns ≠ [] → (ns.length : Int) ∣ integerTotal ns →
      ∃ q : Int64, q.toInt * ns.length = integerTotal ns ∧
        mean (ns.map .integer) = .ok (.integer q) := by
  intro h
  obtain ⟨q, -, hq⟩ := h [Int64.maxValue, Int64.maxValue] (by decide) (by decide)
  obtain ⟨x, hx⟩ : ∃ x,
      mean ([Int64.maxValue, Int64.maxValue].map .integer) = .ok (.float x) := ⟨_, rfl⟩
  cases hq.symm.trans hx

end Mean

end Reduce

end ResourceQuery
