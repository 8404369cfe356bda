import ResourceQuery.Proofs.Pipeline.RowSelection
import ResourceQuery.Proofs.Pipeline.SortOrder

/-!
Sorting by insertion. An element goes behind those that it is not less than, so that two elements
change places only if the later one is less. Where any two elements compare, nothing fails; where
the answers are transitive as well, the result is in order, and elements that are equal are still in
the order in which they came.
-/

set_option autoImplicit false

namespace ResourceQuery.Sort

variable {α : Type} {directions : List Direction}

/-- Whether an answer does not put the left side behind the right one. -/
def NotAfter (answer : Option Ordering) : Prop :=
  answer = some .lt ∨ answer = some .eq

instance (answer : Option Ordering) : Decidable (NotAfter answer) :=
  inferInstanceAs (Decidable (_ ∨ _))

/-- How two elements compare by their keys, or none if they do not. -/
def compare? (directions : List Direction) (a b : Keyed α) : Option Ordering :=
  (compareKeys directions a.1 b.1).toOption

/-- What a stable sort makes of elements: all of them are there, none stands behind one that it is
not behind, and those that are equal to one of them stand in their old order. -/
structure StablySorted (compare? : α → α → Option Ordering) (elements sorted : List α) :
    Prop where
  perm : sorted.Perm elements
  ordered : sorted.Pairwise fun a b ↦ NotAfter (compare? a b)
  stable : ∀ a ∈ elements, sorted.filter (compare? a · = some .eq) =
    elements.filter (compare? a · = some .eq)

theorem toOption_compareKeys_cons (direction : Direction) (directions : List Direction)
    (x y : Value) (xs ys : List Value) :
    (compareKeys (direction :: directions) (x :: xs) (y :: ys)).toOption =
      if x.compare? y = some .eq then (compareKeys directions xs ys).toOption
      else (x.compare? y).map direction.apply := by
  rw [compareKeys]
  rcases x.compare? y with _ | _ | _ | _ <;> simp [Except.toOption]

theorem toOption_compareKeys_swap (directions : List Direction) (xs ys : List Value) :
    (compareKeys directions ys xs).toOption =
      (compareKeys directions xs ys).toOption.map Ordering.swap := by
  induction directions generalizing xs ys with
  | nil => rfl
  | cons direction directions ih =>
    rcases xs with _ | ⟨x, xs⟩ <;> rcases ys with _ | ⟨y, ys⟩ <;> try rfl
    rw [toOption_compareKeys_cons, toOption_compareKeys_cons, ih, Value.compare?_swap x y]
    rcases x.compare? y with _ | _ | _ | _
    · rfl
    · exact congrArg some (apply_swap direction .lt)
    · rfl
    · exact congrArg some (apply_swap direction .gt)

theorem compare?_swap (a b : Keyed α) :
    compare? directions b a = (compare? directions a b).map Ordering.swap :=
  toOption_compareKeys_swap directions a.1 b.1

theorem eq_of_notAfter {o : Option Ordering} (h : NotAfter o)
    (hswap : NotAfter (o.map Ordering.swap)) : o = some .eq := by
  obtain rfl | rfl := h
  · simp [NotAfter] at hswap
  · rfl

theorem notAfter_swap_iff {o : Option Ordering} :
    NotAfter (o.map Ordering.swap) ↔ o = some .gt ∨ o = some .eq := by
  rcases o with _ | _ | _ | _ <;> simp [NotAfter]

variable {x y : Keyed α} {sorted rest result : List (Keyed α)}

/-- What inserting makes of an element and the greatest one so far. -/
theorem insert_cons_eq_ok_iff :
    insert directions x (y :: rest) = .ok result ↔
      (compare? directions x y = some .lt ∧
        ∃ inserted, insert directions x rest = .ok inserted ∧ y :: inserted = result) ∨
      NotAfter (compare? directions y x) ∧ x :: y :: rest = result := by
  rw [compare?_swap x y, notAfter_swap_iff, compare?, insert]
  rcases compareKeys directions x.1 y.1 with e | _ | _ | _
  · simp [Except.toOption]
  · simp [Except.toOption, bind_eq_ok_iff]
  · simp [Except.toOption]
  · simp [Except.toOption]

/-- Elements that compare with what is sorted already are inserted. -/
theorem exists_insert (h : ∀ y ∈ sorted, compare? directions x y ≠ none) :
    ∃ result, insert directions x sorted = .ok result := by
  induction sorted with
  | nil => exact ⟨[x], rfl⟩
  | cons y rest ih =>
    rw [List.forall_mem_cons] at h
    obtain ⟨inserted, hinserted⟩ := ih h.2
    by_cases hlt : compare? directions x y = some .lt
    · exact ⟨_, insert_cons_eq_ok_iff.2 (.inl ⟨hlt, inserted, hinserted, rfl⟩)⟩
    · refine ⟨_, insert_cons_eq_ok_iff.2 (.inr ⟨?_, rfl⟩)⟩
      rw [compare?_swap x y, notAfter_swap_iff]
      rcases hxy : compare? directions x y with _ | _ | _ | _ <;> simp_all

theorem exists_insertAll (h : rest.Pairwise fun a b ↦ compare? directions b a ≠ none)
    (hsorted : ∀ x ∈ rest, ∀ y ∈ sorted, compare? directions x y ≠ none) :
    ∃ result, insertAll directions sorted rest = .ok result := by
  induction rest generalizing sorted with
  | nil => exact ⟨sorted, rfl⟩
  | cons x rest ih =>
    rw [List.pairwise_cons] at h
    rw [List.forall_mem_cons] at hsorted
    obtain ⟨inserted, hinserted⟩ := exists_insert hsorted.1
    rw [insertAll, hinserted, ok_bind]
    refine ih h.2 fun z hz y hy ↦ ?_
    obtain rfl | hy := List.mem_cons.1 ((insert_perm hinserted).mem_iff.1 hy)
    · exact h.1 z hz
    · exact hsorted.2 z hz y hy

section Order

variable {p : Keyed α → Prop}
  (htrans : ∀ a b c, p a → p b → p c → NotAfter (compare? directions a b) →
    NotAfter (compare? directions b c) → NotAfter (compare? directions a c))

include htrans

theorem pairwise_insert (hx : p x) (hp : ∀ y ∈ sorted, p y)
    (hsorted : sorted.Pairwise fun y z ↦ NotAfter (compare? directions z y))
    (h : insert directions x sorted = .ok result) :
    result.Pairwise fun y z ↦ NotAfter (compare? directions z y) := by
  induction sorted generalizing result with
  | nil =>
    cases h
    exact List.pairwise_singleton _ _
  | cons y rest ih =>
    rw [List.forall_mem_cons] at hp
    obtain ⟨hy, hrest⟩ := List.pairwise_cons.1 hsorted
    obtain ⟨hlt, inserted, hinserted, rfl⟩ | ⟨hyx, rfl⟩ := insert_cons_eq_ok_iff.1 h
    · refine List.pairwise_cons.2 ⟨fun z hz ↦ ?_, ih hp.2 hrest hinserted⟩
      obtain rfl | hz := List.mem_cons.1 ((insert_perm hinserted).mem_iff.1 hz)
      · exact .inl hlt
      · exact hy z hz
    · refine List.pairwise_cons.2 ⟨List.forall_mem_cons.2 ⟨hyx, fun z hz ↦ ?_⟩, hsorted⟩
      exact htrans z y x (hp.2 z hz) hp.1 hx (hy z hz) hyx

theorem pairwise_insertAll (hrest : ∀ x ∈ rest, p x) (hp : ∀ y ∈ sorted, p y)
    (hsorted : sorted.Pairwise fun y z ↦ NotAfter (compare? directions z y))
    (h : insertAll directions sorted rest = .ok result) :
    result.Pairwise fun y z ↦ NotAfter (compare? directions z y) := by
  induction rest generalizing sorted with
  | nil =>
    cases h
    exact hsorted
  | cons x rest ih =>
    rw [insertAll, bind_eq_ok_iff] at h
    obtain ⟨inserted, hinserted, h⟩ := h
    rw [List.forall_mem_cons] at hrest
    refine ih hrest.2 (fun y hy ↦ ?_) (pairwise_insert htrans hrest.1 hp hsorted hinserted) h
    obtain rfl | hy := List.mem_cons.1 ((insert_perm hinserted).mem_iff.1 hy)
    · exact hrest.1
    · exact hp y hy

/-- Elements that are equal to the same one are not less than each other. -/
theorem ne_lt_of_ties {a : Keyed α} (ha : p a) (hx : p x) (hy : p y)
    (hax : compare? directions a x = some .eq) (hay : compare? directions a y = some .eq) :
    compare? directions x y ≠ some .lt := by
  intro hlt
  have hya : NotAfter (compare? directions y a) := by
    rw [compare?_swap a y, hay]
    exact .inr rfl
  have hyx := htrans y a x hy ha hx hya (.inr hax)
  rw [compare?_swap x y, hlt] at hyx
  simp [NotAfter] at hyx

end Order

section Stability

variable {q : Keyed α → Bool}

/-- Of elements none of which is less than another, the one that comes last is put last. -/
theorem filter_insert (hq : ∀ y ∈ sorted, q x → q y → compare? directions x y ≠ some .lt)
    (h : insert directions x sorted = .ok result) : result.filter q = (x :: sorted).filter q := by
  induction sorted generalizing result with
  | nil =>
    cases h
    rfl
  | cons y rest ih =>
    rw [List.forall_mem_cons] at hq
    obtain ⟨hlt, inserted, hinserted, rfl⟩ | ⟨-, rfl⟩ := insert_cons_eq_ok_iff.1 h
    · have hpassed : ¬ (q x ∧ q y) := fun hboth ↦ hq.1 hboth.1 hboth.2 hlt
      rw [List.filter_cons, ih hq.2 hinserted]
      by_cases hx : q x <;> by_cases hy : q y <;> simp_all
    · rfl

theorem filter_insertAll
    (hq : ∀ x ∈ rest, ∀ y ∈ sorted ++ rest, q x → q y → compare? directions x y ≠ some .lt)
    (h : insertAll directions sorted rest = .ok result) :
    result.filter q = (rest.reverse ++ sorted).filter q := by
  induction rest generalizing sorted with
  | nil =>
    cases h
    rfl
  | cons x rest ih =>
    rw [insertAll, bind_eq_ok_iff] at h
    obtain ⟨inserted, hinserted, h⟩ := h
    rw [List.forall_mem_cons] at hq
    have hfirst := filter_insert (fun y hy ↦ hq.1 y (List.mem_append_left _ hy)) hinserted
    rw [ih ?_ h, List.filter_append, hfirst, List.reverse_cons, List.append_assoc,
      List.filter_append]
    · rfl
    · intro z hz y hy
      refine hq.2 z hz y ?_
      rw [List.mem_append, (insert_perm hinserted).mem_iff] at hy
      simpa [or_assoc, or_left_comm] using hy

end Stability

/-- Sorting by keys is a stable sort of the elements if any two of them compare and the answers are
transitive. -/
theorem stablySorted_byKeys {elements : List (Keyed α)} {order? : α → α → Option Ordering}
    (hkeys : ∀ a ∈ elements, ∀ b ∈ elements, compare? directions a b = order? a.2 b.2)
    (hcomparable : (elements.map Prod.snd).Pairwise fun a b ↦ order? a b ≠ none)
    (htrans : ∀ a ∈ elements.map Prod.snd, ∀ b ∈ elements.map Prod.snd,
      ∀ c ∈ elements.map Prod.snd, NotAfter (order? a b) → NotAfter (order? b c) →
        NotAfter (order? a c)) :
    ∃ sorted, byKeys directions elements = .ok sorted ∧
      StablySorted order? (elements.map Prod.snd) sorted := by
  have hpairwise : elements.Pairwise fun a b ↦ compare? directions b a ≠ none := by
    refine (List.pairwise_map.1 hcomparable).imp_of_mem fun {a b} ha hb hne ↦ ?_
    rwa [compare?_swap a b, hkeys a ha b hb, ne_eq, Option.map_eq_none_iff]
  obtain ⟨result, hresult⟩ : ∃ result, insertAll directions [] elements = .ok result :=
    exists_insertAll hpairwise fun _ _ _ hy ↦ absurd hy List.not_mem_nil
  have hperm : result.Perm elements := insertAll_perm hresult
  have htransKeyed : ∀ a b c, a ∈ elements → b ∈ elements → c ∈ elements →
      NotAfter (compare? directions a b) → NotAfter (compare? directions b c) →
        NotAfter (compare? directions a c) := by
    intro a b c ha hb hc
    rw [hkeys a ha b hb, hkeys b hb c hc, hkeys a ha c hc]
    exact htrans _ (List.mem_map_of_mem ha) _ (List.mem_map_of_mem hb) _ (List.mem_map_of_mem hc)
  refine ⟨result.reverse.map Prod.snd, by rw [byKeys, hresult]; rfl, ?_, ?_, ?_⟩
  · exact ((List.reverse_perm result).trans hperm).map Prod.snd
  · rw [List.pairwise_map, List.pairwise_reverse]
    refine (pairwise_insertAll htransKeyed (fun x hx ↦ hx) (List.forall_mem_nil _) .nil
      hresult).imp_of_mem fun {a b} ha hb hle ↦ ?_
    rwa [← hkeys b (hperm.mem_iff.1 hb) a (hperm.mem_iff.1 ha)]
  · rintro _ ha
    obtain ⟨a, hmem, rfl⟩ := List.mem_map.1 ha
    have hties : ∀ x ∈ elements, ∀ y ∈ [] ++ elements,
        decide (order? a.2 x.2 = some .eq) → decide (order? a.2 y.2 = some .eq) →
          compare? directions x y ≠ some .lt := by
      intro x hx y hy hax hay
      rw [decide_eq_true_eq, ← hkeys a hmem x hx] at hax
      rw [decide_eq_true_eq, ← hkeys a hmem y hy] at hay
      exact ne_lt_of_ties htransKeyed hmem hx hy hax hay
    have hfilter : result.filter (fun b ↦ order? a.2 b.2 = some .eq) =
        elements.reverse.filter fun b ↦ order? a.2 b.2 = some .eq := by
      simpa only [List.append_nil] using filter_insertAll hties hresult
    rw [List.filter_map, List.filter_map, List.filter_reverse, Function.comp_def, hfilter,
      List.filter_reverse, List.reverse_reverse]

end ResourceQuery.Sort
