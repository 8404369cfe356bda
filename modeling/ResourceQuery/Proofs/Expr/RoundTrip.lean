import ResourceQuery.Proofs.Expr.Rereading
import ResourceQuery.Proofs.Literal

/-!
Which call trees are read back from their text. Three things are lost: a number that is not finite
is printed as a word, a time in universal time whose year needs a sign is printed in a form that no
reader knows, and a number with a sign among the arguments of `sort` is read as a key with a
direction. Every other tree that was read from a text is read again from its own.
-/

set_option autoImplicit false

namespace ResourceQuery

open Number (Binary64 Decimal)
open Calendar (Date DateTime)

mutual

/-- Whether the text of a value stands for the value. -/
def Value.isLegible : Value → Bool
  | .float x | .epoch x => x.isFinite
  | .dateTime t => t.offset != 0 || (0 ≤ t.date.year && t.date.year ≤ 9999)
  | .array items => Value.areLegible items
  | .object _ => false
  | _ => true

def Value.areLegible : List Value → Bool
  | [] => true
  | item :: rest => item.isLegible && Value.areLegible rest

end

mutual

/-- Whether the text of an argument stands for the argument. Among the arguments of `sort` a sign in
front is a direction. -/
def Arg.isLegible (inSort : Bool) : Arg → Bool
  | .call name args => Arg.areLegible (name == "sort") args
  | .value v => v.isLegible && !(inSort && v.isSigned)
  | .sortKey _ key => key.isLegible

def Arg.areLegible (inSort : Bool) : List Arg → Bool
  | [] => true
  | arg :: rest => arg.isLegible inSort && Arg.areLegible inSort rest

end

def Call.isLegible (c : Call) : Bool :=
  Arg.areLegible (c.name == "sort") c.args

/-- A list is made item by item, with an item of the one side for each of the other. -/
theorem exists_mapM_iff {α β : Type} (f : α → Option β) (R : α → β → Prop) (as : List α) :
    (∃ bs, as.mapM f = some bs ∧ List.Forall₂ R as bs) ↔ ∀ a ∈ as, ∃ b, f a = some b ∧ R a b := by
  induction as with
  | nil => simp
  | cons a as ih =>
    rw [List.forall_mem_cons, ← ih, List.mapM_cons]
    constructor
    · rintro ⟨_, hmap, hR⟩
      simp only [Option.bind_eq_bind, Option.bind_eq_some_iff, Option.pure_def,
        Option.some.injEq] at hmap
      obtain ⟨b, hb, bs, hbs, rfl⟩ := hmap
      obtain ⟨hfirst, hmore⟩ := List.forall₂_cons.1 hR
      exact ⟨⟨b, hb, hfirst⟩, bs, hbs, hmore⟩
    · rintro ⟨⟨b, hb, hfirst⟩, bs, hbs, hmore⟩
      exact ⟨b :: bs, by rw [hb, hbs]; rfl, .cons hfirst hmore⟩

theorem mapM_eq_some_self {α : Type} {f : α → Option α} {as : List α}
    (h : ∀ a ∈ as, f a = some a) : as.mapM f = some as := by
  obtain ⟨bs, hbs, heq⟩ := (exists_mapM_iff f Eq as).2 fun a ha ↦ ⟨a, h a ha, rfl⟩
  rw [List.forall₂_eq_eq_eq] at heq
  rw [hbs, heq]

/-- What is read from the text of a value is the value itself. -/
def Value.ReadsBack (v : Value) : Prop :=
  ∃ w, v.reread? = some w ∧ v.identical w = true

namespace Value

theorem readsBack_of_resolve {v w : Value} (hleaf : v.IsLeaf)
    (hresolve : Literal.resolve v.toText = .ok w) (h : v.identical w = true) : v.ReadsBack := by
  refine ⟨w, ?_, h⟩
  rw [Parser.reread?_of_isLeaf hleaf, hresolve]
  rfl

theorem not_readsBack_of_resolve {v w : Value} (hleaf : v.IsLeaf)
    (hresolve : Literal.resolve v.toText = .ok w) (h : v.identical w = false) : ¬ v.ReadsBack := by
  rintro ⟨x, hread, hidentical⟩
  rw [Parser.reread?_of_isLeaf hleaf, hresolve] at hread
  obtain rfl := Option.some.inj hread
  rw [h] at hidentical
  cases hidentical

theorem not_readsBack_of_error {v : Value} {e : LiteralError} (hleaf : v.IsLeaf)
    (hresolve : Literal.resolve v.toText = .error e) : ¬ v.ReadsBack := by
  rintro ⟨x, hread, -⟩
  rw [Parser.reread?_of_isLeaf hleaf, hresolve] at hread
  cases hread

theorem readsBack_leaf_iff {v : Value} (hleaf : v.IsLeaf)
    (hregular : ∀ t, v = .dateTime t → t.Regular) : v.ReadsBack ↔ v.isLegible = true := by
  cases v with
  | null => exact iff_of_true (readsBack_of_resolve hleaf Literal.resolve_null rfl) rfl
  | boolean b =>
    exact iff_of_true (readsBack_of_resolve hleaf (Literal.resolve_boolean b)
      (beq_self_eq_true b)) rfl
  | integer n =>
    exact iff_of_true (readsBack_of_resolve hleaf (Literal.resolve_integer n)
      (beq_self_eq_true n)) rfl
  | float x =>
    cases hfinite : x.isFinite with
    | true =>
      refine iff_of_true (readsBack_of_resolve hleaf (Literal.resolve_float hfinite) ?_) hfinite
      exact Binary64.equal_self hfinite
    | false =>
      obtain ⟨text, hresolve⟩ := Literal.resolve_not_finite hfinite
      exact iff_of_false (not_readsBack_of_resolve hleaf hresolve rfl)
        (by simp [isLegible, hfinite])
  | string text =>
    exact iff_of_true (readsBack_of_resolve hleaf (Literal.resolve_stringChars text)
      (beq_self_eq_true text)) rfl
  | decimal d =>
    refine iff_of_true (readsBack_of_resolve hleaf (Literal.resolve_decimal d) ?_) rfl
    exact beq_iff_eq.2 d.numerator_unsignedZero.symm
  | date d =>
    exact iff_of_true (readsBack_of_resolve hleaf (Literal.resolve_date d)
      (beq_self_eq_true d)) rfl
  | uuid u =>
    exact iff_of_true (readsBack_of_resolve hleaf (Literal.resolve_uuid u)
      (beq_self_eq_true u)) rfl
  | dateTime t =>
    by_cases htext : t.offset ≠ 0 ∨ (0 ≤ t.date.year ∧ t.date.year ≤ 9999)
    · refine iff_of_true (readsBack_of_resolve hleaf
        (Literal.resolve_dateTime (hregular t rfl) htext) ?_) (by simpa [isLegible] using htext)
      exact DateTime.equal_self t
    · obtain ⟨e, hresolve⟩ := Literal.resolve_dateTime_of_signed_year htext
      exact iff_of_false (not_readsBack_of_error hleaf hresolve) (by simpa [isLegible] using htext)
  | epoch x =>
    cases hfinite : x.isFinite with
    | true =>
      obtain ⟨y, hresolve, hequal⟩ := Literal.resolve_epoch hfinite
      exact iff_of_true (readsBack_of_resolve hleaf hresolve hequal) hfinite
    | false =>
      obtain ⟨e, hresolve⟩ := Literal.resolve_epoch_not_finite hfinite
      exact iff_of_false (not_readsBack_of_error hleaf hresolve) (by simp [isLegible, hfinite])
  | array items => exact absurd rfl (hleaf items)
  | object fields =>
    refine iff_of_false (not_readsBack_of_resolve hleaf
      (Literal.resolve_stringChars ((Value.object fields).toJson.toText .compact)) rfl) ?_
    simp [isLegible]

theorem areLegible_iff (items : List Value) :
    areLegible items = true ↔ ∀ v ∈ items, v.isLegible = true := by
  induction items with
  | nil => simp [areLegible]
  | cons v items ih => rw [areLegible, Bool.and_eq_true, ih, List.forall_mem_cons]

theorem identicalItems_iff {xs ys : List Value} :
    identicalItems xs ys = true ↔ List.Forall₂ (fun x y ↦ x.identical y = true) xs ys := by
  induction xs generalizing ys with
  | nil => cases ys <;> simp [identicalItems]
  | cons x xs ih =>
    cases ys with
    | nil => simp [identicalItems]
    | cons y ys => rw [identicalItems, Bool.and_eq_true, ih, List.forall₂_cons]

/-- An array is read back item by item, if it has items. -/
theorem readsBack_array_iff {items : List Value} :
    (Value.array items).ReadsBack ↔ items ≠ [] ∧ ∀ v ∈ items, v.ReadsBack := by
  rw [ReadsBack, reread?]
  split
  · next hempty =>
    simp [List.isEmpty_iff.1 hempty]
  · next hempty =>
    rw [and_iff_right (by simpa [List.isEmpty_iff] using hempty), rereadItems?_eq]
    simp only [Option.map_eq_some_iff, exists_exists_and_eq_and]
    simp only [identical, identicalItems_iff]
    exact exists_mapM_iff _ _ items

/-- A written value is read back exactly if it is legible. -/
theorem readsBack_iff {v : Value} (h : v.Written) : v.ReadsBack ↔ v.isLegible = true := by
  induction h with
  | leaf hleaf hregular => exact readsBack_leaf_iff hleaf hregular
  | array hne _ ih =>
    rw [readsBack_array_iff, and_iff_right hne, isLegible, areLegible_iff]
    exact forall₂_congr ih

end Value

namespace Arg

def ReadsBack (inSort : Bool) (a : Arg) : Prop :=
  ∃ b, a.reread? inSort = some b ∧ a.identical b = true

theorem areLegible_iff (inSort : Bool) (args : List Arg) :
    areLegible inSort args = true ↔ ∀ a ∈ args, a.isLegible inSort = true := by
  induction args with
  | nil => simp [areLegible]
  | cons a args ih => rw [areLegible, Bool.and_eq_true, ih, List.forall_mem_cons]

theorem identicalArgs_iff {as bs : List Arg} :
    identicalArgs as bs = true ↔ List.Forall₂ (fun a b ↦ a.identical b = true) as bs := by
  induction as generalizing bs with
  | nil => cases bs <;> simp [identicalArgs]
  | cons a as ih =>
    cases bs with
    | nil => simp [identicalArgs]
    | cons b bs => rw [identicalArgs, Bool.and_eq_true, ih, List.forall₂_cons]

/-- A list of arguments is read back exactly if each of them is. -/
theorem readsBack_list_iff {inSort : Bool} {args : List Arg} :
    (∃ bs, rereadList? inSort args = some bs ∧ identicalArgs args bs = true) ↔
      ∀ a ∈ args, a.ReadsBack inSort := by
  simp only [rereadList?_eq, identicalArgs_iff]
  exact exists_mapM_iff _ _ args

theorem exists_rereadList?_iff {inSort : Bool} {args : List Arg}
    (h : ∀ a ∈ args, a.ReadsBack inSort ↔ a.isLegible inSort = true) :
    (∃ bs, rereadList? inSort args = some bs ∧ identicalArgs args bs = true) ↔
      areLegible inSort args = true := by
  rw [readsBack_list_iff, areLegible_iff]
  exact forall₂_congr h

theorem readsBack_call_iff {inSort : Bool} {name : String} {args : List Arg} :
    (Arg.call name args).ReadsBack inSort ↔ ∀ a ∈ args, a.ReadsBack (name == "sort") := by
  rw [← readsBack_list_iff, ReadsBack, reread?]
  simp only [Option.map_eq_some_iff, exists_exists_and_eq_and]
  simp only [identical, beq_self_eq_true, Bool.true_and]

theorem readsBack_sortKey_iff {inSort : Bool} {direction : Direction} {key : Value} :
    (Arg.sortKey direction key).ReadsBack inSort ↔ key.ReadsBack := by
  rw [ReadsBack, reread?, Value.ReadsBack]
  simp only [Option.map_eq_some_iff, exists_exists_and_eq_and]
  simp only [identical, beq_self_eq_true, Bool.true_and]

/-- A number with a sign does not come back as a plain argument of `sort`, whatever it resolves to.
-/
theorem readsBack_value_iff {inSort : Bool} {v : Value} :
    (Arg.value v).ReadsBack inSort ↔ v.ReadsBack ∧ (inSort && v.isSigned) = false := by
  rw [ReadsBack, reread?]
  split
  · next hsigned =>
    simp only [Option.map_eq_some_iff, exists_exists_and_eq_and]
    simp only [identical, hsigned]
    simp
  · next hsigned =>
    simp only [Option.map_eq_some_iff, exists_exists_and_eq_and]
    simp only [identical, hsigned]
    simp [Value.ReadsBack]

theorem readsBack_iff {inSort : Bool} {a : Arg} (h : Arg.Shaped Value.Written inSort a) :
    a.ReadsBack inSort ↔ a.isLegible inSort = true := by
  induction h with
  | call _ _ ih =>
    rw [readsBack_call_iff, isLegible, areLegible_iff]
    exact forall₂_congr ih
  | value hv =>
    rw [readsBack_value_iff, Value.readsBack_iff hv, isLegible, Bool.and_eq_true, Bool.not_eq_true']
  | sortKey hkey => rw [readsBack_sortKey_iff, Value.readsBack_iff hkey, isLegible]

end Arg

/-- What is read from the text of a call tree that was itself read from a text is that tree again,
exactly if its numbers are finite, its times in universal time have years of four digits, and no
number with a sign is a plain argument of `sort`. -/
theorem parse_toText_iff_isLegible {text : String} {c : Call} (h : parse text = .ok c) :
    (∃ d, parse c.toText = .ok d ∧ c.identical d = true) ↔ c.isLegible = true := by
  have hshaped := Grammar.shaped_of_parse h
  have hparse : ∀ d, parse c.toText = .ok d ↔ c.reread? = some d := by
    intro d
    rw [← toOption_parse_toText hshaped, toOption_eq_some_iff]
  calc (∃ d, parse c.toText = .ok d ∧ c.identical d = true)
    _ ↔ ∃ bs, Arg.rereadList? (c.name == "sort") c.args = some bs ∧
        Arg.identicalArgs c.args bs = true := by
      simp only [hparse, Call.reread?, Option.map_eq_some_iff, exists_exists_and_eq_and]
      simp only [Call.identical, Call.toArg, Arg.identical, beq_self_eq_true, Bool.true_and]
    _ ↔ c.isLegible = true :=
      Arg.exists_rereadList?_iff fun a ha ↦ Arg.readsBack_iff (hshaped.2 a ha)

theorem parse_of_derives {text : String} {c : Call} {ts : List Token}
    (htokens : (Lexeme.ofText text).map Lexeme.token = ts) (h : Grammar.Derives (.query c) ts) :
    parse text = .ok c := by
  subst htokens
  rw [parse, Grammar.query_eq_ok_iff.2 h]

theorem parse_sort_number : parse "sort(number:-5)" = .ok ⟨"sort", [.value (.integer (-5))]⟩ := by
  have hsort := Printer.prints_word
    (Printer.Plain.isWord (by decide : Printer.Plain "sort".toList) (by decide))
  have hnumber := Printer.prints_word
    (Printer.Plain.isWord (by decide : Printer.Plain "number:-5".toList) (by decide))
  have hprints := hsort.append_delimiter (rfl : Token.ofDelimiter? '(' = _)
    (hnumber.append_delimiter (rfl : Token.ofDelimiter? ')' = _) Printer.prints_nil)
  have hresolve : Literal.resolve "number:-5" = .ok (.integer (-5)) :=
    @Literal.resolve_read .number "-5".toList _ (by decide) rfl
  have hplain : ∀ word, Grammar.IsSigned word → [Token.word "number:-5"] ≠ [.word word] := by
    rintro _ hsigned ⟨⟩
    exact Grammar.isSigned_iff.1 hsigned rfl
  have hcall : Grammar.Derives (.clause ⟨"sort", [.value (.integer (-5))]⟩)
      [.word "sort", .leftParen, .word "number:-5", .rightParen] :=
    .clauseCall (.call ((Grammar.isName_iff "sort").2 (by decide))
      (.argsOne (.argValue (fun _ ↦ hplain) (.valueWord hresolve))))
  exact parse_of_derives (hprints [] [] (by rintro _ ⟨⟩) Lexeme.lexes_nil 0)
    (.query hcall .tailNil (.single _))

/-- The number in `sort(number:-5)` is printed without its tag, and `sort(-5)` sorts in descending
order. -/
theorem sort_of_signed_number :
    parse "sort(number:-5)" = .ok ⟨"sort", [.value (.integer (-5))]⟩ ∧
      ¬ ∃ d, parse (Call.mk "sort" [.value (.integer (-5))]).toText = .ok d ∧
        (Call.mk "sort" [.value (.integer (-5))]).identical d = true := by
  refine ⟨parse_sort_number, ?_⟩
  rw [parse_toText_iff_isLegible parse_sort_number]
  decide

end ResourceQuery
