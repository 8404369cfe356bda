import ResourceQuery.Literal
import ResourceQuery.Proofs.Number.Forms

/-!
What a text without a tag is taken for. Three words stand for booleans and null; a text of the form
of a numeral is a number, and an integer only where it is written as one and fits into sixty-four
bits. All other texts are strings and are left as they are.
-/

set_option autoImplicit false

namespace ResourceQuery.Literal

open Number (Binary64 DecimalText exists_decimalText_of_integerText)
open Text (IntegerText)

/-- The words that stand for a value of their own. -/
def keywords : List String :=
  ["true", "false", "null"]

theorem mem_keywords {text : String} :
    text ∈ keywords ↔ text = "true" ∨ text = "false" ∨ text = "null" := by
  simp [keywords]

/-- The values that texts stand for, by their form. -/
inductive Detects : String → Value → Prop
  | true : Detects "true" (.boolean true)
  | false : Detects "false" (.boolean false)
  | null : Detects "null" .null
  | integer {text : String} {n : Int64} :
      IntegerText n.toInt text.toList → Detects text (.integer n)
  | float {text : String} {s : Number.Scientific} :
      DecimalText s text.toList → (∀ n : Int64, ¬ IntegerText n.toInt text.toList) →
      Detects text (.float (.ofScientific s.negative s.digits s.exponent))
  | string {text : String} :
      text ∉ keywords → (∀ s, ¬ DecimalText s text.toList) → Detects text (.string text)

theorem integer?_eq_some_iff {text : String} {v : Value} :
    integer? text = some v ↔ ∃ n : Int64, IntegerText n.toInt text.toList ∧ v = .integer n := by
  rw [integer?, Option.map_eq_some_iff]
  simp only [Text.readInt64?_eq_some_iff, @eq_comm Value _ v]

theorem integer?_eq_none_iff {text : String} :
    integer? text = none ↔ ∀ n : Int64, ¬ IntegerText n.toInt text.toList := by
  rw [integer?, Option.map_eq_none_iff, Option.eq_none_iff_forall_ne_some]
  simp only [ne_eq, Text.readInt64?_eq_some_iff]

theorem float?_eq_some_iff {text : String} {v : Value} :
    float? text = some v ↔ ∃ s, DecimalText s text.toList ∧
      v = .float (.ofScientific s.negative s.digits s.exponent) := by
  rw [float?, Binary64.read?, Option.map_map, Option.map_eq_some_iff]
  simp only [Number.Scientific.read?_eq_some_iff, Function.comp_apply, @eq_comm Value _ v]

theorem float?_eq_none_iff {text : String} :
    float? text = none ↔ ∀ s, ¬ DecimalText s text.toList := by
  rw [float?, Binary64.read?, Option.map_map, Option.map_eq_none_iff,
    Option.eq_none_iff_forall_ne_some]
  simp only [ne_eq, Number.Scientific.read?_eq_some_iff]

/-- No word that stands for a value of its own has the form of a number. -/
theorem not_keyword_of_decimalText {text : String} {s : Number.Scientific}
    (h : DecimalText s text.toList) : text ∉ keywords := by
  have hnone : ∀ word ∈ keywords, Number.Scientific.read? word.toList = none := by
    intro word hword
    obtain rfl | rfl | rfl := mem_keywords.1 hword
    all_goals rfl
  intro hword
  have hread := Number.Scientific.read?_eq_some_iff.2 h
  rw [hnone text hword] at hread
  cases hread

theorem detect_of_not_keyword {text : String} (h : text ∉ keywords) :
    detect text = (integer? text <|> float? text).getD (.string text) := by
  rw [mem_keywords, not_or, not_or] at h
  obtain ⟨htrue, hfalse, hnull⟩ := h
  have hboolean : boolean? text = none := by rw [boolean?, if_neg htrue, if_neg hfalse]
  have hnull : null? text = none := by rw [null?, if_neg hnull]
  rw [detect, hboolean, hnull]
  rfl

theorem Detects.detect_eq {text : String} {v : Value} (h : Detects text v) : detect text = v := by
  cases h with
  | true | false | null => rfl
  | @integer _ n hn =>
    obtain ⟨s, hs⟩ := exists_decimalText_of_integerText hn
    have hread := integer?_eq_some_iff.2 ⟨n, hn, rfl⟩
    rw [detect_of_not_keyword (not_keyword_of_decimalText hs), hread]
    rfl
  | @float _ s hs hinteger =>
    rw [detect_of_not_keyword (not_keyword_of_decimalText hs), integer?_eq_none_iff.2 hinteger,
      float?_eq_some_iff.2 ⟨s, hs, rfl⟩]
    rfl
  | string hword hfloat =>
    have hinteger (n : Int64) : ¬ IntegerText n.toInt text.toList := by
      intro hn
      obtain ⟨s, hs⟩ := exists_decimalText_of_integerText hn
      exact hfloat s hs
    rw [detect_of_not_keyword hword, integer?_eq_none_iff.2 hinteger, float?_eq_none_iff.2 hfloat]
    rfl

theorem detects_detect (text : String) : Detects text (detect text) := by
  by_cases hword : text ∈ keywords
  · obtain rfl | rfl | rfl := mem_keywords.1 hword
    · exact .true
    · exact .false
    · exact .null
  · rw [detect_of_not_keyword hword]
    rcases hinteger : integer? text with _ | v
    · rcases hfloat : float? text with _ | v
      · exact .string hword (float?_eq_none_iff.1 hfloat)
      · obtain ⟨s, hs, rfl⟩ := float?_eq_some_iff.1 hfloat
        exact .float hs (integer?_eq_none_iff.1 hinteger)
    · obtain ⟨n, hn, rfl⟩ := integer?_eq_some_iff.1 hinteger
      exact .integer hn

/-- The form of a text decides what it is taken for, and the text that an integer of sixty-four bits
is written as is taken for this integer. -/
theorem detect_classifies :
    (∀ (text : String) (v : Value), detect text = v ↔ Detects text v) ∧
      ∀ n : Int64, detect (String.ofList (Text.int64Digits n)) = .integer n := by
  refine ⟨fun text v ↦ ⟨fun h ↦ h ▸ detects_detect text, Detects.detect_eq⟩, fun n ↦ ?_⟩
  refine Detects.detect_eq (.integer (Text.readInt64?_eq_some_iff.1 ?_))
  rw [String.toList_ofList]
  exact Text.readInt64?_int64Digits n

end ResourceQuery.Literal
