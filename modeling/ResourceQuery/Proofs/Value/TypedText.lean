import Mathlib
import ResourceQuery.Proofs.Expr.RoundTrip
import ResourceQuery.Proofs.Value.Comparison

/-!
The JSON text of decimals, dates, times and identifiers as a literal. JSON has strings for these
values, and a string that meets a value of such a kind is read by the tag of the kind. So a value
that was written to JSON is found again by the literal it came from, unless its text is one that the
tag does not read: a time in universal time whose year needs a sign.
-/

set_option autoImplicit false

namespace ResourceQuery

open Number (Decimal)
open Calendar (Date DateTime)

namespace Value

theorem compareAlike_unsignedZero (d : Decimal) :
    compareAlike (.decimal d.unsignedZero) (.decimal d) = some .eq := by
  refine congrArg some ?_
  rw [Decimal.compare, d.numerator_unsignedZero]
  exact Std.ReflCmp.compare_self

/-- A string is read as the kind that it meets. -/
theorem compare?_string (s : String) (v : Value) :
    compare? (.string s) v = (readLike? s v).bind (compareAlike · v) := by
  rw [compare?_eq_compareLeaves fun _ _ h _ ↦ Value.noConfusion h]
  rfl

end Value

namespace Tag

theorem resolve_eq_ok_iff {tag : Tag} {text : String} {v : Value} :
    tag.resolve text = .ok v ↔ tag.read? text = some v := by
  unfold resolve
  split
  · next heq => rw [heq, Except.ok.injEq, Option.some.injEq]
  · next heq => simp [heq]

/-- The JSON text of a value is read by the tag of its kind as a value no different, or not at all. -/
theorem exists_text_of_read? {tag : Tag} {text : String} {v : Value}
    (htag : tag ∈ [Tag.decimal, .date, .dateTime, .uuid]) (h : tag.read? text = some v) :
    ∃ s, v.toJson = .string s ∧ Value.readLike? s v = tag.read? s ∧
      if v.isLegible then ∃ w, tag.read? s = some w ∧ Value.compareAlike w v = some .eq
      else tag.read? s = none := by
  simp only [List.mem_cons, List.not_mem_nil, or_false] at htag
  obtain rfl | rfl | rfl | rfl := htag
  · obtain ⟨d, -, rfl⟩ := Option.map_eq_some_iff.1 h
    refine ⟨_, rfl, rfl, .decimal d.unsignedZero, ?_, Value.compareAlike_unsignedZero d⟩
    rw [read?, String.toList_ofList, Decimal.read?_chars, Option.map_some]
  · obtain ⟨d, -, rfl⟩ := Option.map_eq_some_iff.1 h
    refine ⟨_, rfl, rfl, .date d, ?_, congrArg some Std.ReflCmp.compare_self⟩
    rw [read?, String.toList_ofList, Date.read?_chars, Option.map_some]
  · obtain ⟨t, ht, rfl⟩ := Option.map_eq_some_iff.1 h
    refine ⟨_, rfl, rfl, ?_⟩
    by_cases htext : t.offset ≠ 0 ∨ (0 ≤ t.date.year ∧ t.date.year ≤ 9999)
    · have hlegible : (Value.dateTime t).isLegible = true := by simpa [Value.isLegible] using htext
      rw [if_pos hlegible]
      refine ⟨.dateTime t, ?_, congrArg some (beq_iff_eq.1 t.equal_self)⟩
      rw [read?, String.toList_ofList, DateTime.read?_chars (DateTime.regular_of_read? ht) htext,
        Option.map_some]
    · have hlegible : (Value.dateTime t).isLegible ≠ true := by
        simpa [Value.isLegible] using htext
      rw [if_neg hlegible]
      rw [not_or, not_not] at htext
      rw [read?, String.toList_ofList, DateTime.read?_chars_of_signed_year htext.1 htext.2,
        Option.map_none]
  · obtain ⟨u, -, rfl⟩ := Option.map_eq_some_iff.1 h
    refine ⟨_, rfl, rfl, .uuid u, ?_, congrArg some Std.ReflCmp.compare_self⟩
    rw [read?, String.toList_ofList, Uuid.read?_chars, Option.map_some]

/-- Whatever text a decimal, date, time or identifier was read from, its JSON text is read by the
same tag and equals it, exactly if it is legible: always, but for a time in universal time whose
year needs a sign. -/
theorem resolve_toJson_iff {tag : Tag} {text : String} {v : Value}
    (htag : tag ∈ [Tag.decimal, .date, .dateTime, .uuid]) (h : tag.resolve text = .ok v) :
    ∃ s, v.toJson = .string s ∧ ((∃ w, tag.resolve s = .ok w) ↔ v.isLegible = true) ∧
      (Value.compare? (.string s) v = some .eq ↔ v.isLegible = true) := by
  obtain ⟨s, hs, hlike, hread⟩ := exists_text_of_read? htag (resolve_eq_ok_iff.1 h)
  refine ⟨s, hs, ?_⟩
  simp only [Value.compare?_string, hlike, resolve_eq_ok_iff]
  cases hlegible : v.isLegible with
  | true =>
    rw [if_pos hlegible] at hread
    obtain ⟨w, hw, hequal⟩ := hread
    exact ⟨iff_of_true ⟨w, hw⟩ rfl, iff_of_true (by rw [hw, Option.bind_some, hequal]) rfl⟩
  | false =>
    rw [if_neg (Bool.eq_false_iff.1 hlegible)] at hread
    simp [hread]

/-- A leap second in a year with a sign is found again where the text names an offset. -/
theorem resolve_toJson_of_leap_second :
    ∃ t s, Tag.dateTime.resolve "+12345-06-30 23:59:60.25 +0530" = .ok (.dateTime t) ∧
      (Value.dateTime t).toJson = .string s ∧ (∃ w, Tag.dateTime.resolve s = .ok w) ∧
      Value.compare? (.string s) (.dateTime t) = some .eq := by
  have hread : Tag.dateTime.resolve "+12345-06-30 23:59:60.25 +0530" =
      .ok (.dateTime ⟨⟨12345, 6, 30, by decide, by decide, by decide⟩, 86399, 1250000000, 330,
        by decide, by decide, by decide⟩) := rfl
  obtain ⟨s, hs, hresolve, hcompare⟩ := resolve_toJson_iff (by decide) hread
  exact ⟨_, s, hread, hs, hresolve.2 rfl, hcompare.2 rfl⟩

/-- The start of a year with a sign is not found again in universal time: its JSON text ends in the
letter, and no form of a time has both the sign and the letter. -/
theorem signed_year_not_resolved :
    ∃ t, Tag.dateTime.resolve "+12345-01-01T00:00:00+00:00" = .ok (.dateTime t) ∧
      (Value.dateTime t).toJson = .string "+12345-01-01T00:00:00Z" ∧
      Tag.dateTime.resolve "+12345-01-01T00:00:00Z" =
        .error (.conversion .dateTime "+12345-01-01T00:00:00Z") ∧
      Value.compare? (.string "+12345-01-01T00:00:00Z") (.dateTime t) = none := by
  have hread : Tag.dateTime.resolve "+12345-01-01T00:00:00Z" =
      .error (.conversion .dateTime "+12345-01-01T00:00:00Z") := by cbv
  refine ⟨⟨⟨12345, 1, 1, by decide, by decide, by decide⟩, 0, 0, 0, by decide, by decide,
    by decide⟩, by cbv, by cbv, hread, by cbv⟩

end Tag

end ResourceQuery
