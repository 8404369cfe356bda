import Mathlib.Data.List.Induction
import ResourceQuery.Proofs.Pipeline.RowSelection
import ResourceQuery.Proofs.Pipeline.Sequences
import ResourceQuery.Proofs.Value.Equality

/-!
Dropping repetitions. An element is compared with those that are kept so far and with no others, so
that what is left is described through the kept elements alone: no two of them are equal, and each
of the others has an equal among those in front of it. An element may well be equal to one that was
dropped, because equality of values is not transitive.
-/

set_option autoImplicit false

namespace ResourceQuery

namespace State

section Distinct

variable {α β : Type} {equal : α → α → Bool}

theorem distinctBy_append_singleton (kept xs : List α) (x : α) :
    distinctBy equal kept (xs ++ [x]) = distinctBy equal kept xs ++
      if (kept ++ distinctBy equal kept xs).any (equal · x) then [] else [x] := by
  induction xs generalizing kept with
  | nil => simp [distinctBy]
  | cons y xs ih =>
    rw [List.cons_append, distinctBy, distinctBy]
    split
    · exact ih kept
    · rw [ih, List.cons_append]
      simp [Bool.or_left_comm]

theorem distinctBy_pairwise (kept xs : List α) :
    (∀ x ∈ distinctBy equal kept xs, ∀ a ∈ kept, equal a x = false) ∧
      (distinctBy equal kept xs).Pairwise fun a b ↦ equal a b = false := by
  induction xs generalizing kept with
  | nil => simp [distinctBy]
  | cons x xs ih =>
    rw [distinctBy]
    split
    · exact ih kept
    · next hx =>
      obtain ⟨hkept, hpairwise⟩ := ih (x :: kept)
      rw [Bool.not_eq_true, List.any_eq_false] at hx
      refine ⟨List.forall_mem_cons.2 ⟨fun a ha ↦ Bool.eq_false_iff.2 (hx a ha), ?_⟩, ?_⟩
      · exact fun y hy a ha ↦ hkept y hy a (List.mem_cons_of_mem x ha)
      · exact List.pairwise_cons.2 ⟨fun y hy ↦ hkept y hy x List.mem_cons_self, hpairwise⟩

/-- Where nothing is repeated, nothing is dropped. -/
theorem distinctBy_of_pairwise {kept xs : List α} (hkept : ∀ x ∈ xs, ∀ a ∈ kept, equal a x = false)
    (h : xs.Pairwise fun a b ↦ equal a b = false) : distinctBy equal kept xs = xs := by
  induction xs generalizing kept with
  | nil => rfl
  | cons x xs ih =>
    rw [List.pairwise_cons] at h
    rw [List.forall_mem_cons] at hkept
    have hnew : kept.any (equal · x) = false :=
      List.any_eq_false.2 fun a ha ↦ Bool.eq_false_iff.1 (hkept.1 a ha)
    have hrest : ∀ y ∈ xs, ∀ a ∈ x :: kept, equal a y = false := fun y hy ↦
      List.forall_mem_cons.2 ⟨h.1 y hy, hkept.2 y hy⟩
    rw [distinctBy, hnew, if_neg Bool.false_ne_true, ih hrest h.2]

theorem distinctBy_idem (xs : List α) :
    distinctBy equal [] (distinctBy equal [] xs) = distinctBy equal [] xs :=
  distinctBy_of_pairwise (fun _ _ _ ha ↦ nomatch ha) (distinctBy_pairwise [] xs).2

theorem distinctBy_map {equal : β → β → Bool} (f : α → β) (kept xs : List α) :
    distinctBy equal (kept.map f) (xs.map f) =
      (distinctBy (fun a b ↦ equal (f a) (f b)) kept xs).map f := by
  induction xs generalizing kept with
  | nil => rfl
  | cons x xs ih =>
    have hany : (kept.map f).any (equal · (f x)) = kept.any fun a ↦ equal (f a) (f x) :=
      List.any_map
    rw [List.map_cons, distinctBy, distinctBy, hany, ← List.map_cons, ih, ih]
    split
    · rfl
    · rw [List.map_cons]

/-- What is left of `xs` where repetitions are dropped: the elements at some positions, no two of
them equal, while each of the others is equal to one of them in front of it. -/
structure KeptAt (equal : α → α → Bool) (xs kept : List α) (positions : List Nat) : Prop where
  increasing : positions.Pairwise (· < ·)
  elements : List.Forall₂ (fun position x ↦ xs[position]? = some x) positions kept
  apart : kept.Pairwise fun earlier later ↦ equal earlier later = false
  dropped : ∀ {i : Nat} {x : α}, xs[i]? = some x → i ∉ positions →
    ∃ position y, position ∈ positions ∧ position < i ∧ xs[position]? = some y ∧ equal y x = true

variable {xs kept : List α} {positions : List Nat} {x : α}

theorem KeptAt.lt_length (h : KeptAt equal xs kept positions) {position : Nat}
    (hposition : position ∈ positions) : position < xs.length := by
  obtain ⟨x, -, hx⟩ := exists_mem_of_forall₂ h.elements hposition
  exact (List.getElem?_eq_some_iff.1 hx).1

theorem getElem?_append_singleton_iff {i : Nat} {y : α} :
    (xs ++ [x])[i]? = some y ↔ xs[i]? = some y ∨ i = xs.length ∧ x = y := by
  obtain hi | rfl | hi := Nat.lt_trichotomy i xs.length
  · simp [List.getElem?_append_left hi, Nat.ne_of_lt hi]
  · simp
  · obtain ⟨k, rfl⟩ := Nat.exists_eq_add_of_lt hi
    simp [Nat.add_assoc]

theorem KeptAt.elements_append (h : KeptAt equal xs kept positions) (x : α) :
    List.Forall₂ (fun position y ↦ (xs ++ [x])[position]? = some y) positions kept :=
  h.elements.imp fun _ _ hy ↦ getElem?_append_singleton_iff.2 (.inl hy)

theorem KeptAt.dropped_append (h : KeptAt equal xs kept positions) (x : α) {i : Nat} {y : α}
    (hy : xs[i]? = some y) (hmem : i ∉ positions) :
    ∃ position z, position ∈ positions ∧ position < i ∧ (xs ++ [x])[position]? = some z ∧
      equal z y = true := by
  obtain ⟨position, z, hposition, hlt, hz, hequal⟩ := h.dropped hy hmem
  exact ⟨position, z, hposition, hlt, getElem?_append_singleton_iff.2 (.inl hz), hequal⟩

/-- One element more, which is equal to a kept one. -/
theorem KeptAt.drop (h : KeptAt equal xs kept positions) (hx : kept.any (equal · x) = true) :
    KeptAt equal (xs ++ [x]) kept positions where
  increasing := h.increasing
  elements := h.elements_append x
  apart := h.apart
  dropped := by
    intro i y hy hmem
    obtain hy | ⟨rfl, rfl⟩ := getElem?_append_singleton_iff.1 hy
    · exact h.dropped_append x hy hmem
    · obtain ⟨z, hz, hequal⟩ := List.any_eq_true.1 hx
      obtain ⟨position, hposition, hfound⟩ := exists_mem_of_forall₂ h.elements.flip hz
      exact ⟨position, z, hposition, h.lt_length hposition,
        getElem?_append_singleton_iff.2 (.inl hfound), hequal⟩

/-- One element more, which is equal to none that is kept. -/
theorem KeptAt.keep (h : KeptAt equal xs kept positions) (hx : kept.any (equal · x) = false) :
    KeptAt equal (xs ++ [x]) (kept ++ [x]) (positions ++ [xs.length]) where
  increasing := by
    refine List.pairwise_append.2 ⟨h.increasing, List.pairwise_singleton _ _, ?_⟩
    intro position hposition
    exact List.forall_mem_singleton.2 (h.lt_length hposition)
  elements := by
    refine List.rel_append (h.elements_append x) (.cons ?_ .nil)
    exact getElem?_append_singleton_iff.2 (.inr ⟨rfl, rfl⟩)
  apart := by
    refine List.pairwise_append.2 ⟨h.apart, List.pairwise_singleton _ _, ?_⟩
    intro a ha
    exact List.forall_mem_singleton.2 (Bool.eq_false_iff.2 (List.any_eq_false.1 hx a ha))
  dropped := by
    intro i y hy hmem
    rw [List.mem_append, List.mem_singleton, not_or] at hmem
    obtain hy | ⟨hi, -⟩ := getElem?_append_singleton_iff.1 hy
    · obtain ⟨position, z, hposition, hfound⟩ := h.dropped_append x hy hmem.1
      exact ⟨position, z, List.mem_append_left _ hposition, hfound⟩
    · exact absurd hi hmem.2

theorem exists_keptAt (equal : α → α → Bool) (xs : List α) :
    ∃ positions, KeptAt equal xs (distinctBy equal [] xs) positions := by
  -- elements are added at the end, where they meet all that is kept of those in front of them
  induction xs using List.reverseRecOn with
  | nil => exact ⟨[], .nil, .nil, .nil, fun h ↦ nomatch h⟩
  | append_singleton xs x ih =>
    obtain ⟨positions, h⟩ := ih
    rw [distinctBy_append_singleton, List.nil_append]
    split
    · next hseen =>
      rw [List.append_nil]
      exact ⟨positions, h.drop hseen⟩
    · next hnew => exact ⟨_, h.keep (Bool.eq_false_iff.2 hnew)⟩

end Distinct

/-- Rows are compared as values. -/
theorem exists_rebuilt_of_distinct {s : State} {xs : List Value} (h : s.items? = some xs) :
    ∃ t, s.distinct = .ok t ∧ s.Rebuilt (distinctBy Value.looseEq [] xs) t := by
  cases s with
  | records rows | grouped rows =>
    cases h
    exact ⟨_, rfl, rfl, congrArg some (distinctBy_map Value.object [] rows).symm⟩
  | values vs =>
    cases h
    exact ⟨_, rfl, rfl, rfl⟩
  | scalar v => cases h

end State

namespace Stage

open State (KeptAt distinctBy)

/-- Dropping the repetitions of a sequence gives a sequence of the same kind. Its elements are those
at some positions, in their order; none of them equals one in front of it, and every element that is
dropped equals one that is kept and stands in front of it. Doing so again drops nothing. -/
theorem distinct_keeps_first {s : State} {xs : List Value} (h : s.items? = some xs) :
    ∃ t ys positions, distinct.run s = .ok t ∧ s.Rebuilt ys t ∧ ys.Sublist xs ∧
      KeptAt Value.looseEq xs ys positions ∧ distinct.run t = .ok t := by
  obtain ⟨t, ht, hrebuilt⟩ := State.exists_rebuilt_of_distinct h
  obtain ⟨positions, hpositions⟩ := State.exists_keptAt Value.looseEq xs
  obtain ⟨again, hagain, hsame⟩ := State.exists_rebuilt_of_distinct hrebuilt.items_eq
  rw [State.distinctBy_idem] at hsame
  obtain rfl : again = t := hsame.unique ⟨rfl, hrebuilt.items_eq⟩
  exact ⟨again, _, positions, ht, hrebuilt, State.distinctBy_sublist _ _ xs, hpositions, hagain⟩

/-- The float equals both integers, which are not equal. It is dropped on account of the first one,
and the last one is kept although it equals the float. -/
theorem distinct_keeps_first_of_integers :
    let odd : Value := .integer 9007199254740993
    let between : Value := .float (.ofInt 9007199254740992)
    let even : Value := .integer 9007199254740992
    let s := State.values [odd, between, even]
    s.items? = some [odd, between, even] ∧ even.looseEq between = true ∧
      ∃ t ys positions, distinct.run s = .ok t ∧ t = .values [odd, even] ∧ s.Rebuilt ys t ∧
        ys.Sublist [odd, between, even] ∧
        KeptAt Value.looseEq [odd, between, even] ys positions ∧ distinct.run t = .ok t := by
  intro odd between even s
  have hitems : s.items? = some [odd, between, even] := rfl
  have hequal : even.looseEq between = true := by decide +kernel
  have hodd : odd.looseEq between = true := by decide +kernel
  have hne : odd.looseEq even = false := by decide +kernel
  have hresult : distinct.run s = .ok (.values [odd, even]) := by
    simp [s, run, State.distinct, distinctBy, hodd, hne]
  obtain ⟨t, ys, positions, ht, hrest⟩ := distinct_keeps_first hitems
  exact ⟨hitems, hequal, t, ys, positions, ht, Except.ok.inj (ht.symm.trans hresult), hrest⟩

end Stage

end ResourceQuery
