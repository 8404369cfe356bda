import ResourceQuery.Proofs.Calendar.DateTime
import ResourceQuery.Proofs.Expr.Soundness

/-!
The shape of call trees. A tree that was read from a text has operator names for its calls, keys
with a direction only among the arguments of `sort`, no empty arrays, and times as a clock shows
them.
-/

set_option autoImplicit false

namespace ResourceQuery

open Calendar (DateTime)

/-- A value that is not put together from others by parentheses. -/
def Value.IsLeaf (v : Value) : Prop :=
  ∀ items, v ≠ .array items

theorem Value.isLeaf_or_array (v : Value) : v.IsLeaf ∨ ∃ items, v = .array items := by
  cases v with
  | array items => exact .inr ⟨items, rfl⟩
  | _ => exact .inl fun _ ↦ by simp

/-- The values that texts are read as. -/
inductive Value.Written : Value → Prop
  | leaf {v : Value} : v.IsLeaf → (∀ t, v = .dateTime t → t.Regular) → Written v
  | array {items : List Value} : items ≠ [] → (∀ v ∈ items, Written v) → Written (.array items)

/-- Names are names, and keys with a direction are arguments of `sort` alone. The values satisfy
`P`. The flag tells whether the argument is one of `sort`. -/
inductive Arg.Shaped (P : Value → Prop) : Bool → Arg → Prop
  | call {inSort : Bool} {name : String} {args : List Arg} :
      Grammar.IsName name → (∀ a ∈ args, Shaped P (name == "sort") a) →
      Shaped P inSort (.call name args)
  | value {inSort : Bool} {v : Value} : P v → Shaped P inSort (.value v)
  | sortKey {direction : Direction} {key : Value} : P key → Shaped P true (.sortKey direction key)

def Call.Shaped (P : Value → Prop) (c : Call) : Prop :=
  Grammar.IsName c.name ∧ ∀ a ∈ c.args, Arg.Shaped P (c.name == "sort") a

theorem Call.Shaped.toArg {P : Value → Prop} {c : Call} (h : c.Shaped P) (inSort : Bool) :
    Arg.Shaped P inSort c.toArg :=
  .call h.1 h.2

namespace Literal

theorem written_of_map {α : Type} {found : Option α} {f : α → Value} {v : Value}
    (hleaf : ∀ a, (f a).IsLeaf) (htime : ∀ a t, f a ≠ .dateTime t) (h : found.map f = some v) :
    v.Written := by
  obtain ⟨a, -, rfl⟩ := Option.map_eq_some_iff.1 h
  exact .leaf (hleaf a) fun t ht ↦ absurd ht (htime a t)

theorem written_boolean? {text : String} {v : Value} (h : boolean? text = some v) : v.Written := by
  unfold boolean? at h
  split at h
  · cases h
    exact .leaf (by simp [Value.IsLeaf]) (by simp)
  · split at h
    · cases h
      exact .leaf (by simp [Value.IsLeaf]) (by simp)
    · cases h

theorem written_null? {text : String} {v : Value} (h : null? text = some v) : v.Written := by
  unfold null? at h
  split at h
  · cases h
    exact .leaf (by simp [Value.IsLeaf]) (by simp)
  · cases h

theorem written_integer? {text : String} {v : Value} (h : integer? text = some v) : v.Written :=
  written_of_map (by simp [Value.IsLeaf]) (by simp) h

theorem written_float? {text : String} {v : Value} (h : float? text = some v) : v.Written :=
  written_of_map (by simp [Value.IsLeaf]) (by simp) h

theorem written_string (text : String) : (Value.string text).Written :=
  .leaf (by simp [Value.IsLeaf]) (by simp)

theorem written_detect (text : String) : (detect text).Written := by
  rw [detect]
  rcases hfound : boolean? text <|> null? text <|> integer? text <|> float? text with _ | v
  · exact written_string text
  · simp only [Option.orElse_eq_orElse, Option.orElse_eq_or, Option.or_eq_some_iff] at hfound
    obtain h | ⟨-, h | ⟨-, h | ⟨-, h⟩⟩⟩ := hfound
    · exact written_boolean? h
    · exact written_null? h
    · exact written_integer? h
    · exact written_float? h

theorem written_read? {tag : Tag} {text : String} {v : Value} (h : tag.read? text = some v) :
    v.Written := by
  cases tag with
  | string =>
    cases h
    exact written_string text
  | number =>
    simp only [Tag.read?, Option.orElse_eq_orElse, Option.orElse_eq_or, Option.or_eq_some_iff] at h
    obtain h | ⟨-, h⟩ := h
    · exact written_integer? h
    · exact written_float? h
  | boolean => exact written_boolean? h
  | null =>
    rw [Tag.read?] at h
    split at h
    · cases h
      exact .leaf (by simp [Value.IsLeaf]) (by simp)
    · exact written_null? h
  | epoch | date | uuid | decimal => exact written_of_map (by simp [Value.IsLeaf]) (by simp) h
  | dateTime =>
    obtain ⟨t, ht, rfl⟩ := Option.map_eq_some_iff.1 h
    refine .leaf (by simp [Value.IsLeaf]) ?_
    rintro _ ⟨⟩
    exact DateTime.regular_of_read? ht

theorem written_resolve {raw : String} {v : Value} (h : resolve raw = .ok v) : v.Written := by
  rw [resolve, bind_eq_ok_iff] at h
  obtain ⟨text, -, h⟩ := h
  split at h
  · next tag rest _ =>
    unfold Tag.resolve at h
    split at h
    · next hread =>
      cases h
      exact written_read? hread
    · cases h
  · cases h
    exact written_detect text

end Literal

namespace Grammar

/-- What a phrase stands for has the shape of written trees. -/
def Phrase.Shaped : Phrase → Prop
  | .query c | .clause c | .group c | .call c | .comparison c => c.Shaped Value.Written
  | .tail _ cs => ∀ c ∈ cs, c.Shaped Value.Written
  | .args inSort as => ∀ a ∈ as, Arg.Shaped Value.Written inSort a
  | .arg inSort a => Arg.Shaped Value.Written inSort a
  | .sortArg _ v | .value v | .array v => v.Written
  | .values vs => vs ≠ [] ∧ ∀ v ∈ vs, v.Written

theorem shaped_of_calls {name : String} (hname : IsName name) {cs : List Call}
    (h : ∀ c ∈ cs, c.Shaped Value.Written) :
    (Call.mk name (cs.map fun c ↦ .call c.name c.args)).Shaped Value.Written :=
  ⟨hname, List.forall_mem_map.2 fun c hc ↦ (h c hc).toArg _⟩

theorem Joins.shaped {joint : Parser.Joint} {cs : List Call} {tree : Call}
    (hjoins : Joins joint cs tree) (h : ∀ c ∈ cs, c.Shaped Value.Written) :
    tree.Shaped Value.Written := by
  cases hjoins with
  | single => exact h tree (List.mem_singleton_self tree)
  | and => exact shaped_of_calls ((isName_iff "and").2 (by decide)) h
  | or => exact shaped_of_calls ((isName_iff "or").2 (by decide)) h

theorem shaped_comparison {name : String} (hname : IsName name) {field operand : Value}
    (hfield : field.Written) (hoperand : operand.Written) :
    (Call.mk name [.value field, .value operand]).Shaped Value.Written :=
  ⟨hname, List.forall_mem_cons.2 ⟨.value hfield, List.forall_mem_singleton.2 (.value hoperand)⟩⟩

theorem Derives.shaped {phrase : Phrase} {ts : List Token} (h : Derives phrase ts) :
    phrase.Shaped := by
  induction h with
  | query _ _ hjoins ihfirst ihmore =>
    exact hjoins.shaped (List.forall_mem_cons.2 ⟨ihfirst, ihmore⟩)
  | clauseGroup _ ih | clauseCall _ ih | clauseComparison _ ih | valueArray _ ih => exact ih
  | tailNil => exact List.forall_mem_nil _
  | tailCons _ _ _ ihfirst ihmore => exact List.forall_mem_cons.2 ⟨ihfirst, ihmore⟩
  | group _ _ hjoins ihfirst ihmore =>
    exact hjoins.shaped (List.forall_mem_cons.2 ⟨ihfirst, ihmore⟩)
  | callEmpty hname => exact ⟨hname, List.forall_mem_nil _⟩
  | call hname _ ih => exact ⟨hname, ih⟩
  | equality _ _ ihfield ihoperand =>
    exact shaped_comparison ((isName_iff "eq").2 (by decide)) ihfield ihoperand
  | comparison hname _ _ ihfield ihoperand => exact shaped_comparison hname ihfield ihoperand
  | argsOne _ ih => exact List.forall_mem_singleton.2 ih
  | argsCons _ _ ihfirst ihmore => exact List.forall_mem_cons.2 ⟨ihfirst, ihmore⟩
  | argCall _ ih => exact .call ih.1 ih.2
  | argSort _ ih => exact .sortKey ih
  | argValue _ _ ih => exact .value ih
  | sortWord _ _ hresolve | valueWord hresolve => exact Literal.written_resolve hresolve
  | sortArray _ _ ih => exact ih
  | array _ ih => exact .array ih.1 ih.2
  | valuesOne _ ih => exact ⟨List.cons_ne_nil _ _, List.forall_mem_singleton.2 ih⟩
  | valuesCons _ _ ihfirst ihmore =>
    exact ⟨List.cons_ne_nil _ _, List.forall_mem_cons.2 ⟨ihfirst, ihmore.2⟩⟩

/-- Whatever a text is read as has the shape of written trees. -/
theorem shaped_of_parse {text : String} {c : Call} (h : parse text = .ok c) :
    c.Shaped Value.Written := by
  unfold parse at h
  split at h
  · next hquery =>
    cases h
    exact (derives_of_query hquery).shaped
  · cases h

end Grammar

end ResourceQuery
