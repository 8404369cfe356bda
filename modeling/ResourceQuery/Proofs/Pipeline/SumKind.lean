import Mathlib.Data.List.Induction
import ResourceQuery.Proofs.Pipeline.Blame
import ResourceQuery.Proofs.Value.Comparison

/-!
The kind of a sum. A decimal anywhere makes it a decimal, a float without decimals makes it a float,
and integers alone make it an integer or, once they leave its range, a float. The total keeps to
this with every value that is added, so that the order of the values plays no part in it.
-/

set_option autoImplicit false

namespace ResourceQuery

theorem Value.isNumeric_iff {v : Value} :
    v.isNumeric = true ↔
      v.kind? = some .integer ∨ v.kind? = some .float ∨ v.kind? = some .decimal := by
  cases v <;> simp [isNumeric, kind?]

namespace Reduce

open Number (Binary64)
open Value (isNumeric_iff)

variable {total v next : Value} {values other : List Value}

theorem sum_append_singleton (values : List Value) (v : Value) :
    sum (values ++ [v]) = sum values >>= fun total ↦ add total v := by
  rw [sum, List.foldlM_append]
  congr 1
  funext total
  rw [List.foldlM_cons]
  cases add total v <;> rfl

theorem add_of_not_isNumeric (h : v.isNumeric = false) (total : Value) :
    add total v = .error (notNumeric v) := by
  unfold add
  rw [h]
  rfl

theorem add_integers (m n : Int64) :
    add (.integer m) (.integer n) = match Number.add? m n with
      | some sum => .ok (.integer sum)
      | none => .ok (.float ((Binary64.ofInt m.toInt).add (.ofInt n.toInt))) :=
  rfl

/-- Where a decimal takes part, both sides are added as decimals. -/
theorem add_of_decimal (hv : v.isNumeric = true)
    (h : total.kind? = some .decimal ∨ v.kind? = some .decimal) :
    add total v = addDecimals total v := by
  obtain hkind | hkind := h
  · cases total with
    | decimal d => cases v <;> first | rfl | cases hv
    | _ => cases hkind
  · cases v with
    | decimal d => cases total <;> rfl
    | _ => cases hkind

theorem kind_of_addDecimals {a b : Value} (h : addDecimals a b = .ok next) :
    next.kind? = some .decimal := by
  obtain ⟨d, -, h⟩ := bind_eq_ok_iff.1 h
  obtain ⟨e, -, h⟩ := bind_eq_ok_iff.1 h
  split at h
  · cases h
    rfl
  · cases h

/-- Integers and floats can always be added, and only integers give an integer. -/
theorem exists_add (htotal : total.kind? = some .integer ∨ total.kind? = some .float)
    (hv : v.kind? = some .integer ∨ v.kind? = some .float) :
    ∃ next, add total v = .ok next ∧
      (next.kind? = some .integer ∧ total.kind? = some .integer ∧ v.kind? = some .integer ∨
        next.kind? = some .float) := by
  cases total with
  | integer m =>
    cases v with
    | integer n =>
      rw [add_integers]
      cases Number.add? m n with
      | some sum => exact ⟨_, rfl, .inl ⟨rfl, rfl, rfl⟩⟩
      | none => exact ⟨_, rfl, .inr rfl⟩
    | float y => exact ⟨_, rfl, .inr rfl⟩
    | _ => simp [Value.kind?] at hv
  | float x =>
    cases v with
    | integer n | float y => exact ⟨_, rfl, .inr rfl⟩
    | _ => simp [Value.kind?] at hv
  | _ => simp [Value.kind?] at htotal

/-- What the kind of a total says of the kinds of the values in it. -/
structure TotalOf (values : List Value) (total : Value) : Prop where
  numeric : ∀ v ∈ values, v.isNumeric = true
  total_numeric : total.isNumeric = true
  decimal_iff : total.kind? = some .decimal ↔ ∃ v ∈ values, v.kind? = some .decimal
  of_integer : total.kind? = some .integer → ∀ v ∈ values, v.kind? = some .integer

/-- Another value keeps the total to the kinds of the values in it. -/
theorem TotalOf.add (h : TotalOf values total) (hadd : Reduce.add total v = .ok next) :
    TotalOf (values ++ [v]) next := by
  have hv : v.isNumeric = true := by
    by_contra hv
    rw [add_of_not_isNumeric (Bool.eq_false_iff.2 hv)] at hadd
    cases hadd
  have hnumeric : ∀ w ∈ values ++ [v], w.isNumeric = true := by
    simpa [or_imp, forall_and] using ⟨h.numeric, hv⟩
  have hdecimal : (∃ w ∈ values ++ [v], w.kind? = some .decimal) ↔
      total.kind? = some .decimal ∨ v.kind? = some .decimal := by
    rw [h.decimal_iff]
    simp [or_and_right, exists_or]
  by_cases hsides : total.kind? = some .decimal ∨ v.kind? = some .decimal
  · rw [add_of_decimal hv hsides] at hadd
    have hnext := kind_of_addDecimals hadd
    refine ⟨hnumeric, isNumeric_iff.2 (.inr (.inr hnext)), ?_, fun hinteger ↦ ?_⟩
    · exact iff_of_true hnext (hdecimal.2 hsides)
    · rw [hnext] at hinteger
      cases hinteger
  · obtain ⟨htotal, hv'⟩ := not_or.1 hsides
    -- without a decimal the addition cannot fail, so that `next` is the sum that is known to exist
    obtain ⟨_, hadd', hnext⟩ := exists_add
      ((isNumeric_iff.1 h.total_numeric).imp_right fun h ↦ h.resolve_right htotal)
      ((isNumeric_iff.1 hv).imp_right fun h ↦ h.resolve_right hv')
    obtain rfl := Except.ok.inj (hadd.symm.trans hadd')
    obtain ⟨hnext, hinteger, hv⟩ | hnext := hnext
    · refine ⟨hnumeric, isNumeric_iff.2 (.inl hnext), iff_of_false ?_ (mt hdecimal.1 hsides), ?_⟩
      · simp [hnext]
      · intro _
        simpa [or_imp, forall_and] using ⟨h.of_integer hinteger, hv⟩
    · refine ⟨hnumeric, isNumeric_iff.2 (.inr (.inl hnext)),
        iff_of_false ?_ (mt hdecimal.1 hsides), ?_⟩ <;> simp [hnext]

theorem totalOf_sum (h : sum values = .ok total) : TotalOf values total := by
  induction values using List.reverseRecOn generalizing total with
  | nil =>
    cases h
    exact ⟨by simp, rfl, by simp [Value.kind?], by simp⟩
  | append_singleton values v ih =>
    rw [sum_append_singleton, bind_eq_ok_iff] at h
    obtain ⟨before, hbefore, hadd⟩ := h
    exact (ih hbefore).add hadd

theorem TotalOf.float (h : TotalOf values total) (hfloat : ∃ v ∈ values, v.kind? = some .float)
    (hdecimal : ∀ v ∈ values, v.kind? ≠ some .decimal) : total.kind? = some .float := by
  obtain ⟨v, hv, hkind⟩ := hfloat
  obtain hinteger | htotal | htotal := isNumeric_iff.1 h.total_numeric
  · cases hkind.symm.trans (h.of_integer hinteger v hv)
  · exact htotal
  · obtain ⟨w, hw, hw'⟩ := h.decimal_iff.1 htotal
    exact absurd hw' (hdecimal w hw)

/-- Of the same kinds, apart from integers alone, only one kind of total comes. -/
theorem TotalOf.kind_eq {total' : Value} (h : TotalOf values total) (h' : TotalOf other total')
    (hkinds : ∀ kind, kind ∈ other.map Value.kind? ↔ kind ∈ values.map Value.kind?)
    (hmixed : ∃ v ∈ values, v.kind? ≠ some .integer) : total'.kind? = total.kind? := by
  simp only [List.mem_map] at hkinds
  by_cases hdecimal : ∃ v ∈ values, v.kind? = some .decimal
  · rw [h.decimal_iff.2 hdecimal, h'.decimal_iff.2 ((hkinds _).2 hdecimal)]
  · obtain ⟨v, hv, hne⟩ := hmixed
    have hfloat : ∃ v ∈ values, v.kind? = some .float := by
      obtain hinteger | hfloat | hkind := isNumeric_iff.1 (h.numeric v hv)
      · exact absurd hinteger hne
      · exact ⟨v, hv, hfloat⟩
      · exact absurd ⟨v, hv, hkind⟩ hdecimal
    have hdecimal' := mt (hkinds (some .decimal)).1 hdecimal
    push Not at hdecimal hdecimal'
    rw [h.float hfloat hdecimal, h'.float ((hkinds _).2 hfloat) hdecimal']

theorem exists_sum (h : ∀ v ∈ values, v.kind? = some .integer ∨ v.kind? = some .float) :
    ∃ total, sum values = .ok total ∧
      (total.kind? = some .integer ∨ total.kind? = some .float) := by
  induction values using List.reverseRecOn with
  | nil => exact ⟨_, rfl, .inl rfl⟩
  | append_singleton values v ih =>
    obtain ⟨total, htotal, hkind⟩ := ih fun w hw ↦ h w (List.mem_append_left _ hw)
    obtain ⟨next, hnext, hkind'⟩ := exists_add hkind (h v (by simp))
    rw [sum_append_singleton, htotal, ok_bind]
    exact ⟨next, hnext, hkind'.imp_left And.left⟩

/-- When values have a sum, and of which kind it is. A value that is not a number is refused, and
whatever else fails is a matter of types too; integers and floats always have a sum. It is a decimal
exactly if one of the values is, an integer only if all are, and a float if there is a float and no
decimal. So values of the same kinds, which are not integers alone, have sums of one kind, in
whatever order and number they come. -/
theorem kind_of_sum (values : List Value) :
    FailsOnly Mistyped (sum values) ∧
    ((∃ v ∈ values, v.isNumeric = false) → ∃ e, sum values = .error e) ∧
    ((∀ v ∈ values, v.kind? = some .integer ∨ v.kind? = some .float) →
      ∃ total, sum values = .ok total) ∧
    ∀ total, sum values = .ok total →
      (total.kind? = some .decimal ↔ ∃ v ∈ values, v.kind? = some .decimal) ∧
      (total.kind? = some .integer → ∀ v ∈ values, v.kind? = some .integer) ∧
      ((∃ v ∈ values, v.kind? = some .float) → (∀ v ∈ values, v.kind? ≠ some .decimal) →
        total.kind? = some .float) ∧
      ∀ other total', (∀ kind, kind ∈ other.map Value.kind? ↔ kind ∈ values.map Value.kind?) →
        (∃ v ∈ values, v.kind? ≠ some .integer) → sum other = .ok total' →
          total'.kind? = total.kind? := by
  refine ⟨failsOnly_sum values, ?_, fun h ↦ ?_, fun total htotal ↦ ?_⟩
  · rintro ⟨v, hv, hfalse⟩
    rcases hsum : sum values with e | total
    · exact ⟨e, rfl⟩
    · rw [(totalOf_sum hsum).numeric v hv] at hfalse
      cases hfalse
  · obtain ⟨total, htotal, -⟩ := exists_sum h
    exact ⟨total, htotal⟩
  · have h := totalOf_sum htotal
    exact ⟨h.decimal_iff, h.of_integer, h.float,
      fun other total' hkinds hmixed hother ↦ h.kind_eq (totalOf_sum hother) hkinds hmixed⟩

end Reduce

end ResourceQuery
