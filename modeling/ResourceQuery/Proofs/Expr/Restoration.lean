import ResourceQuery.Proofs.Expr.RoundTrip

/-!
Which call trees come back from their text, whether they were read from a text or put together by
hand. Names that no operator can have, empty arrays, objects, keys with a direction outside of
`sort`, and numbers with a sign among the arguments of `sort` are lost. Without them a tree comes
back exactly if each number, each time and each identifier in it does; strings always do.
-/

set_option autoImplicit false

namespace ResourceQuery

/-- Numbers, times and identifiers. -/
def Value.isTyped : Value → Bool
  | .integer _ | .float _ | .decimal _ | .date _ | .dateTime _ | .epoch _ | .uuid _ => true
  | _ => false

/-- The word that stands for a value is read as the value again. -/
def Value.Resolves (v : Value) : Prop :=
  ∃ w, Literal.resolve v.toText = .ok w ∧ v.identical w = true

/-- No objects and no empty arrays; the numbers, times and identifiers satisfy `P`. -/
inductive Value.Restorable (P : Value → Prop) : Value → Prop
  | leaf {v : Value} : v.IsLeaf → (∀ fields, v ≠ .object fields) → (v.isTyped = true → P v) →
      Restorable P v
  | array {items : List Value} : items ≠ [] → (∀ v ∈ items, Restorable P v) →
      Restorable P (.array items)

/-- Names are names, keys with a direction are arguments of `sort` alone, and no plain argument of
`sort` is a number with a sign in front. The flag tells whether the argument is one of `sort`. -/
inductive Arg.Restorable (P : Value → Prop) : Bool → Arg → Prop
  | call {inSort : Bool} {name : String} {args : List Arg} :
      Grammar.IsName name → (∀ a ∈ args, Restorable P (name == "sort") a) →
      Restorable P inSort (.call name args)
  | value {inSort : Bool} {v : Value} :
      v.Restorable P →
      (inSort = true → v.isNumeric = true → v.toText.toList.head? ≠ some '-') →
      Restorable P inSort (.value v)
  | sortKey {direction : Direction} {key : Value} :
      key.Restorable P → Restorable P true (.sortKey direction key)

def Call.Restorable (P : Value → Prop) (c : Call) : Prop :=
  c.toArg.Restorable P false

namespace Value

variable {P : Value → Prop}

theorem restorable_leaf_iff {v : Value} (hleaf : v.IsLeaf) :
    v.Restorable P ↔ (∀ fields, v ≠ .object fields) ∧ (v.isTyped = true → P v) := by
  constructor
  · intro h
    cases h with
    | leaf _ hobject htyped => exact ⟨hobject, htyped⟩
    | array => exact absurd rfl (hleaf _)
  · rintro ⟨hobject, htyped⟩
    exact .leaf hleaf hobject htyped

theorem restorable_array_iff {items : List Value} :
    (Value.array items).Restorable P ↔ items ≠ [] ∧ ∀ v ∈ items, v.Restorable P := by
  constructor
  · intro h
    cases h with
    | leaf hleaf => exact absurd rfl (hleaf items)
    | array hne hitems => exact ⟨hne, hitems⟩
  · rintro ⟨hne, hitems⟩
    exact .array hne hitems

/-- Constants and strings are read from their own text, whatever characters a string has. -/
theorem resolve_toText_of_not_isTyped {v : Value} (hleaf : v.IsLeaf)
    (hobject : ∀ fields, v ≠ .object fields) (htyped : v.isTyped = false) :
    Literal.resolve v.toText = .ok v ∧ v.identical v = true := by
  cases v with
  | null => exact ⟨Literal.resolve_null, rfl⟩
  | boolean b => exact ⟨Literal.resolve_boolean b, beq_self_eq_true b⟩
  | string text => exact ⟨Literal.resolve_stringChars text, beq_self_eq_true text⟩
  | array items => exact absurd rfl (hleaf items)
  | object fields => exact absurd rfl (hobject fields)
  | _ => cases htyped

theorem readsBack_leaf_iff_resolves {v : Value} (hleaf : v.IsLeaf) :
    v.ReadsBack ↔ v.Resolves := by
  rw [ReadsBack, Parser.reread?_of_isLeaf hleaf]
  simp only [toOption_eq_some_iff]
  rfl

/-- The text of an object is read as a string. -/
theorem not_resolves_object (fields : List (String × Value)) :
    ¬ (Value.object fields).Resolves := by
  rintro ⟨w, hresolve, hidentical⟩
  have hstring : Literal.resolve (Value.object fields).toText = _ :=
    Literal.resolve_stringChars ((Value.object fields).toJson.toText .compact)
  obtain rfl := Except.ok.inj (hresolve.symm.trans hstring)
  cases hidentical

theorem readsBack_iff_restorable (v : Value) : v.ReadsBack ↔ v.Restorable Resolves := by
  induction v using induction_parts with
  | h v ih =>
    obtain hleaf | ⟨items, rfl⟩ := v.isLeaf_or_array
    · rw [readsBack_leaf_iff_resolves hleaf, restorable_leaf_iff hleaf]
      constructor
      · intro hresolves
        refine ⟨?_, fun _ ↦ hresolves⟩
        rintro fields rfl
        exact not_resolves_object fields hresolves
      · rintro ⟨hobject, htyped⟩
        cases htype : v.isTyped with
        | true => exact htyped htype
        | false => exact ⟨v, resolve_toText_of_not_isTyped hleaf hobject htype⟩
    · rw [readsBack_array_iff, restorable_array_iff]
      refine and_congr_right fun _ ↦ forall₂_congr fun v hv ↦ ?_
      obtain ⟨i, hi⟩ := List.getElem?_of_mem hv
      exact ih (.item i) v hi

/-- If the words are read as the very values, so is the whole value. -/
theorem Restorable.reread?_eq {v : Value}
    (h : v.Restorable fun w ↦ Literal.resolve w.toText = .ok w) : v.reread? = some v := by
  induction h with
  | @leaf v hleaf hobject htyped =>
    rw [Parser.reread?_of_isLeaf hleaf, toOption_eq_some_iff]
    cases htype : v.isTyped with
    | true => exact htyped htype
    | false => exact (resolve_toText_of_not_isTyped hleaf hobject htype).1
  | array hne _ ih =>
    rw [reread?, if_neg (by simpa [List.isEmpty_iff] using hne), rereadItems?_eq,
      mapM_eq_some_self ih, Option.map_some]

/-- Of the numbers exactly those with a minus sign are taken for a key with a direction. -/
theorem isSigned_iff (v : Value) :
    v.isSigned = true ↔ v.isNumeric = true ∧ v.toText.toList.head? = some '-' := by
  rw [toText, String.toList_ofList]
  obtain hleaf | ⟨items, rfl⟩ := v.isLeaf_or_array
  · have hword := Printer.leafWord_valueChars hleaf
    cases hsigned : v.isSigned with
    | true =>
      obtain ⟨c, rest, htext⟩ := hword.signed hsigned
      have hnumeric : v.isNumeric = true := by
        cases v with
        | integer | float | decimal => rfl
        | _ => cases hsigned
      exact iff_of_true rfl ⟨hnumeric, by rw [htext, List.head?_cons]⟩
    | false =>
      obtain ⟨c, rest, htext, hc⟩ := hword.unsigned hsigned
      refine iff_of_false Bool.false_ne_true ?_
      rintro ⟨-, hhead⟩
      rw [htext, List.head?_cons] at hhead
      obtain rfl := Option.some.inj hhead
      cases hc
  · exact iff_of_false Bool.false_ne_true fun h ↦ Bool.false_ne_true h.1

end Value

namespace Arg

variable {P : Value → Prop}

theorem restorable_call_iff {inSort : Bool} {name : String} {args : List Arg} :
    (Arg.call name args).Restorable P inSort ↔
      Grammar.IsName name ∧ ∀ a ∈ args, a.Restorable P (name == "sort") := by
  constructor
  · rintro (⟨hname, hargs⟩ | _ | _)
    exact ⟨hname, hargs⟩
  · rintro ⟨hname, hargs⟩
    exact .call hname hargs

theorem restorable_value_iff {inSort : Bool} {v : Value} :
    (Arg.value v).Restorable P inSort ↔ v.Restorable P ∧ (inSort && v.isSigned) = false := by
  have hplain : (inSort && v.isSigned) = false ↔
      (inSort = true → v.isNumeric = true → v.toText.toList.head? ≠ some '-') := by
    rw [Bool.eq_false_iff, ne_eq, Bool.and_eq_true, v.isSigned_iff]
    tauto
  rw [hplain]
  constructor
  · rintro (_ | ⟨hv, hsigned⟩ | _)
    exact ⟨hv, hsigned⟩
  · rintro ⟨hv, hsigned⟩
    exact .value hv hsigned

theorem restorable_sortKey_iff {direction : Direction} {key : Value} :
    (Arg.sortKey direction key).Restorable P true ↔ key.Restorable P := by
  constructor
  · rintro (_ | _ | hkey)
    exact hkey
  · exact .sortKey

theorem Restorable.shaped {inSort : Bool} {a : Arg} (h : a.Restorable P inSort) :
    Arg.Shaped (Value.Restorable P) inSort a := by
  induction h with
  | call hname _ ih => exact .call hname ih
  | value hv => exact .value hv
  | sortKey hkey => exact .sortKey hkey

theorem readsBack_iff_restorable {Q : Value → Prop} {inSort : Bool} {a : Arg}
    (h : Arg.Shaped Q inSort a) : a.ReadsBack inSort ↔ a.Restorable Value.Resolves inSort := by
  induction h with
  | call hname _ ih =>
    rw [readsBack_call_iff, restorable_call_iff, and_iff_right hname]
    exact forall₂_congr ih
  | value => rw [readsBack_value_iff, restorable_value_iff, Value.readsBack_iff_restorable]
  | sortKey =>
    rw [readsBack_sortKey_iff, restorable_sortKey_iff, Value.readsBack_iff_restorable]

theorem Restorable.reread?_eq {inSort : Bool} {a : Arg}
    (h : a.Restorable (fun w ↦ Literal.resolve w.toText = .ok w) inSort) :
    a.reread? inSort = some a := by
  induction h with
  | call _ _ ih => rw [reread?, rereadList?_eq, mapM_eq_some_self ih, Option.map_some]
  | @value inSort v hv hsigned =>
    have hplain := (restorable_value_iff.1 (.value hv hsigned)).2
    rw [reread?, if_neg (Bool.eq_false_iff.1 hplain), hv.reread?_eq, Option.map_some]
  | sortKey hkey => rw [reread?, hkey.reread?_eq, Option.map_some]

/-- A tree that equals one with the shape of a tree has that shape too. -/
theorem Shaped.of_identical {inSort : Bool} {a b : Arg} (hb : Arg.Shaped P inSort b)
    (h : a.identical b = true) : Arg.Shaped (fun _ ↦ True) inSort a := by
  induction hb generalizing a with
  | @call inSort name args hname _ ih =>
    cases a with
    | call name' args' =>
      rw [identical, Bool.and_eq_true, beq_iff_eq, identicalArgs_iff] at h
      obtain ⟨rfl, hargs⟩ := h
      refine .call hname fun a ha ↦ ?_
      obtain ⟨b, hb, hidentical⟩ := exists_mem_of_forall₂ hargs ha
      exact ih b hb hidentical
    | value | sortKey => cases h
  | value =>
    cases a with
    | value => exact .value trivial
    | call | sortKey => cases h
  | sortKey =>
    cases a with
    | sortKey => exact .sortKey trivial
    | call | value => cases h

end Arg

theorem Call.shaped_iff {P : Value → Prop} {c : Call} :
    c.Shaped P ↔ Arg.Shaped P false c.toArg := by
  constructor
  · exact fun h ↦ h.toArg false
  · rintro (⟨hname, hargs⟩ | _ | _)
    exact ⟨hname, hargs⟩

theorem parse_toText_eq_ok_iff {P : Value → Prop} {c : Call} (h : c.Shaped P) (d : Call) :
    parse c.toText = .ok d ↔ c.reread? = some d := by
  rw [← toOption_parse_toText h, toOption_eq_some_iff]

theorem exists_parse_toText_iff {P : Value → Prop} {c : Call} (h : c.Shaped P) :
    (∃ d, parse c.toText = .ok d ∧ c.identical d = true) ↔ c.toArg.ReadsBack false := by
  rw [Call.toArg, Arg.readsBack_call_iff, ← Arg.readsBack_list_iff]
  simp only [parse_toText_eq_ok_iff h, Call.reread?, Option.map_eq_some_iff,
    exists_exists_and_eq_and]
  simp only [Call.identical, Call.toArg, Arg.identical, beq_self_eq_true, Bool.true_and]

/-- A call tree is read from its own text again exactly if it is restorable and its words are read
again. If they are read as the very values that they stand for, the very tree is read. -/
theorem parse_toText_iff_restorable (c : Call) :
    ((∃ d, parse c.toText = .ok d ∧ c.identical d = true) ↔ c.Restorable Value.Resolves) ∧
      (c.Restorable (fun v ↦ Literal.resolve v.toText = .ok v) → parse c.toText = .ok c) := by
  refine ⟨⟨?_, fun h ↦ ?_⟩, fun h ↦ ?_⟩
  · rintro ⟨d, hparse, hidentical⟩
    have hd := Grammar.shaped_of_parse hparse
    have hc := Arg.Shaped.of_identical (hd.toArg false) hidentical
    have hback := (exists_parse_toText_iff (Call.shaped_iff.2 hc)).1 ⟨d, hparse, hidentical⟩
    exact (Arg.readsBack_iff_restorable hc).1 hback
  · have hc := Arg.Restorable.shaped h
    exact (exists_parse_toText_iff (Call.shaped_iff.2 hc)).2 ((Arg.readsBack_iff_restorable hc).2 h)
  · rw [parse_toText_eq_ok_iff (Call.shaped_iff.2 h.shaped)]
    have hargs := (Arg.restorable_call_iff.1 h).2
    rw [Call.reread?, Arg.rereadList?_eq, mapM_eq_some_self fun a ha ↦ (hargs a ha).reread?_eq,
      Option.map_some]

/-- Strings that look like a direction, a number or a tuple come back as the keys of a `sort` that
was put together by hand. -/
theorem parse_toText_sort_of_strings :
    let c : Call := ⟨"sort", [.sortKey .descending (.array [.string "+a,(b", .string ""]),
      .value (.string "-5")]⟩
    c.Restorable (fun v ↦ Literal.resolve v.toText = .ok v) ∧ parse c.toText = .ok c := by
  intro c
  have hstring : ∀ text : String,
      (Value.string text).Restorable (fun v ↦ Literal.resolve v.toText = .ok v) :=
    fun _ ↦ .leaf (by simp [Value.IsLeaf]) (by simp) (by simp [Value.isTyped])
  have hkey : (Value.array [.string "+a,(b", .string ""]).Restorable
      (fun v ↦ Literal.resolve v.toText = .ok v) :=
    .array (List.cons_ne_nil _ _) (List.forall_mem_cons.2 ⟨hstring _,
      List.forall_mem_singleton.2 (hstring _)⟩)
  have hrestorable : c.Restorable (fun v ↦ Literal.resolve v.toText = .ok v) :=
    .call ((Grammar.isName_iff "sort").2 (by decide)) (List.forall_mem_cons.2 ⟨.sortKey hkey,
      List.forall_mem_singleton.2 (.value (hstring _) (by simp [Value.isNumeric]))⟩)
  exact ⟨hrestorable, (parse_toText_iff_restorable c).2 hrestorable⟩

end ResourceQuery
