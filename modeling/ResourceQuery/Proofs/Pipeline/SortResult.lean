import ResourceQuery.Proofs.Pipeline.StableSort

/-!
The result of a stable sort. It is determined by the elements and their order, so that whatever else
sorts them stably gives the same. It begins with the earliest of the elements that are not behind
another. Sorting by one order what is stably sorted by a second one is a stable sort by the first
order and, where this finds two elements equal, by the second.
-/

set_option autoImplicit false

namespace ResourceQuery.Sort

variable {α : Type} {compare? first later : α → α → Option Ordering}
  {elements sorted other rest : List α} {a b : α}

theorem notAfter_iff {answer : Option Ordering} :
    NotAfter answer ↔ ∃ o, answer = some o ∧ o ≠ .gt := by
  rcases answer with _ | _ | _ | _ <;> simp [NotAfter]

/-- Whether the answers of a comparison fit together: turning the sides around turns the answer
around, and what is equal to something is equal to itself. -/
structure Consistent (compare? : α → α → Option Ordering) : Prop where
  swap : ∀ a b, compare? b a = (compare? a b).map Ordering.swap
  self : ∀ a b, compare? a b = some .eq → compare? a a = some .eq

/-- Comparing by one order, and by another one where the first finds both sides equal. -/
def thenBy (first later : α → α → Option Ordering) (a b : α) : Option Ordering :=
  if first a b = some .eq then later a b else first a b

theorem thenBy_eq_iff :
    thenBy first later a b = some .eq ↔ first a b = some .eq ∧ later a b = some .eq := by
  by_cases h : first a b = some .eq <;> simp [thenBy, h]

theorem Consistent.thenBy (hfirst : Consistent first) (hlater : Consistent later) :
    Consistent (thenBy first later) where
  swap a b := by
    rw [Sort.thenBy, Sort.thenBy, hfirst.swap a b, hlater.swap a b]
    rcases first a b with _ | _ | _ | _ <;> rfl
  self a b h := by
    rw [thenBy_eq_iff] at h ⊢
    exact ⟨hfirst.self a b h.1, hlater.self a b h.2⟩

/-- Whether an element between those before it and those after it is less than the former and not
behind the latter. -/
structure Foremost (compare? : α → α → Option Ordering) (before : List α) (a : α)
    (after : List α) : Prop where
  less : ∀ b ∈ before, compare? a b = some .lt
  notAfter : ∀ b ∈ after, NotAfter (compare? a b)

/-- The first element of the result is the earliest one that is not behind another. -/
theorem StablySorted.exists_foremost (hconsistent : Consistent compare?)
    (h : StablySorted compare? elements (a :: rest)) :
    ∃ before after, elements = before ++ a :: after ∧ Foremost compare? before a after := by
  have hmem : a ∈ elements := h.perm.mem_iff.1 List.mem_cons_self
  -- Where `a` is not equal to itself, it is equal to nothing, and any place of it will do.
  obtain ⟨before, after, rfl, hbefore⟩ : ∃ before after, elements = before ++ a :: after ∧
      ∀ b ∈ before, compare? a b ≠ some .eq := by
    by_cases hself : compare? a a = some .eq
    · have hties := h.stable a hmem
      rw [List.filter_cons_of_pos (by simpa using hself), eq_comm, List.filter_eq_cons_iff] at hties
      obtain ⟨before, after, heq, hbefore, -, -⟩ := hties
      exact ⟨before, after, heq, by simpa using hbefore⟩
    · obtain ⟨before, after, heq⟩ := List.append_of_mem hmem
      exact ⟨before, after, heq, fun b _ hb ↦ hself (hconsistent.self a b hb)⟩
  have hperm : rest.Perm (before ++ after) := (h.perm.trans List.perm_middle).cons_inv
  have hle : ∀ b ∈ before ++ after, NotAfter (compare? a b) := fun b hb ↦
    (List.pairwise_cons.1 h.ordered).1 b (hperm.mem_iff.2 hb)
  refine ⟨before, after, rfl, fun b hb ↦ ?_, fun b hb ↦ hle b (List.mem_append_right _ hb)⟩
  exact (hle b (List.mem_append_left _ hb)).resolve_right (hbefore b hb)

/-- Lists of the same elements in order are equal if they have those that are equal to one of them
in the same order. -/
theorem eq_of_ordered (hconsistent : Consistent compare?) (hperm : sorted.Perm other)
    (hsorted : sorted.Pairwise fun a b ↦ NotAfter (compare? a b))
    (hother : other.Pairwise fun a b ↦ NotAfter (compare? a b))
    (hties : ∀ a ∈ sorted, sorted.filter (compare? a · = some .eq) =
      other.filter (compare? a · = some .eq)) : sorted = other := by
  induction sorted generalizing other with
  | nil => exact hperm.nil_eq
  | cons a rest ih =>
    cases other with
    | nil => exact hperm.eq_nil
    | cons b others =>
      rw [List.pairwise_cons] at hsorted hother
      obtain rfl : a = b := by
        by_contra hne
        have hab : NotAfter (compare? a b) := by
          have hmem : b ∈ a :: rest := hperm.mem_iff.2 List.mem_cons_self
          exact hsorted.1 b ((List.mem_cons.1 hmem).resolve_left (Ne.symm hne))
        have hba : NotAfter (compare? b a) :=
          hother.1 a ((List.mem_cons.1 (hperm.mem_iff.1 List.mem_cons_self)).resolve_left hne)
        rw [hconsistent.swap a b] at hba
        have heq := eq_of_notAfter hab hba
        have hfirst := hties a List.mem_cons_self
        rw [List.filter_cons_of_pos (by simpa using hconsistent.self a b heq),
          List.filter_cons_of_pos (by simpa using heq)] at hfirst
        exact hne (List.cons.inj hfirst).1
      refine congrArg (a :: ·) (ih hperm.cons_inv hsorted.2 hother.2 fun c hc ↦ ?_)
      have htail := hties c (List.mem_cons_of_mem a hc)
      rw [List.filter_cons, List.filter_cons] at htail
      split at htail
      · exact (List.cons.inj htail).2
      · exact htail

/-- A stable sort has only one result. -/
theorem StablySorted.unique (hconsistent : Consistent compare?)
    (h : StablySorted compare? elements sorted) (h' : StablySorted compare? elements other) :
    sorted = other := by
  refine eq_of_ordered hconsistent (h.perm.trans h'.perm.symm) h.ordered h'.ordered fun a ha ↦ ?_
  have hmem : a ∈ elements := h.perm.mem_iff.1 ha
  rw [h.stable a hmem, h'.stable a hmem]

/-- Equal elements come out in the order in which they came. -/
theorem StablySorted.sublist_of_tie (hconsistent : Consistent compare?)
    (h : StablySorted compare? elements sorted) (heq : compare? a b = some .eq)
    (hsublist : [a, b].Sublist sorted) : [a, b].Sublist elements := by
  have hmem : a ∈ elements := h.perm.mem_iff.1 (hsublist.subset List.mem_cons_self)
  have hkept : [a, b].filter (compare? a · = some .eq) = [a, b] := by
    simp [hconsistent.self a b heq, heq]
  have hties := hsublist.filter (compare? a · = some .eq)
  rw [hkept, h.stable a hmem] at hties
  exact hties.trans List.filter_sublist

/-- A stable sort of what is stably sorted by another order. -/
theorem StablySorted.thenBy (hfirst : Consistent first) (h : StablySorted later elements sorted)
    (h' : StablySorted first sorted other) : StablySorted (thenBy first later) elements other where
  perm := h'.perm.trans h.perm
  ordered := by
    rw [List.pairwise_iff_forall_sublist]
    intro a b hsublist
    obtain hlt | heq := List.pairwise_iff_forall_sublist.1 h'.ordered hsublist
    · exact .inl (by simp [Sort.thenBy, hlt])
    · -- Equal elements stand as the second order has put them.
      rw [Sort.thenBy, if_pos heq]
      exact List.pairwise_iff_forall_sublist.1 h.ordered (h'.sublist_of_tie hfirst heq hsublist)
  stable a ha := by
    have hboth : ∀ l : List α, l.filter (Sort.thenBy first later a · = some .eq) =
        (l.filter (first a · = some .eq)).filter (later a · = some .eq) := by
      intro l
      rw [List.filter_filter]
      refine List.filter_congr fun b _ ↦ ?_
      rw [← Bool.decide_and, decide_eq_decide, thenBy_eq_iff, and_comm]
    rw [hboth, hboth, h'.stable a (h.perm.mem_iff.2 ha), List.filter_comm, h.stable a ha,
      List.filter_comm]

end ResourceQuery.Sort

namespace ResourceQuery

open ResourceQuery.Sort (Consistent)

/-- Turning an order around twice leaves it as it is. -/
theorem Direction.apply_eq_iff {direction : Direction} {o p : Ordering} :
    direction.apply o = p ↔ o = direction.apply p := by
  cases direction with
  | ascending => exact Iff.rfl
  | descending => cases o <;> cases p <;> simp [apply]

namespace SortSpec

variable {key : SortSpec} {r s : Record} {o : Ordering}

theorem compare?_eq_some_iff : key.compare? r s = some o ↔
    ∃ x y p, key.field.lookup r = .ok x ∧ key.field.lookup s = .ok y ∧
      x.compare? y = some p ∧ key.direction.apply p = o := by
  simp only [compare?, Option.bind_eq_some_iff, Option.map_eq_some_iff, toOption_eq_some_iff]
  constructor
  · rintro ⟨x, hx, y, hy, p, hp, happly⟩
    exact ⟨x, y, p, hx, hy, hp, happly⟩
  · rintro ⟨x, y, p, hx, hy, hp, happly⟩
    exact ⟨x, hx, y, hy, p, hp, happly⟩

theorem consistent_compare? (key : SortSpec) : Consistent key.compare? where
  swap := compare?_swap key
  self r s h := by
    obtain ⟨x, y, p, hx, -, hxy, hp⟩ := compare?_eq_some_iff.1 h
    obtain rfl : p = .eq := by
      rw [Direction.apply_eq_iff.1 hp]
      cases key.direction <;> rfl
    exact compare?_eq_some_iff.2 ⟨x, x, .eq, hx, hx, Value.compare?_self hxy, hp⟩

theorem compareRows?_cons_eq_thenBy (key : SortSpec) (keys : List SortSpec) :
    compareRows? (key :: keys) = Sort.thenBy key.compare? (compareRows? keys) := by
  funext r s
  exact compareRows?_cons key keys r s

theorem consistent_compareRows? (keys : List SortSpec) : Consistent (compareRows? keys) := by
  induction keys with
  | nil => exact ⟨fun _ _ ↦ rfl, fun _ _ _ ↦ rfl⟩
  | cons key keys ih =>
    rw [compareRows?_cons_eq_thenBy]
    exact (consistent_compare? key).thenBy ih

theorem compareRows?_singleton (key : SortSpec) : compareRows? [key] = key.compare? := by
  funext r s
  rw [compareRows?_cons]
  split
  · next heq => exact heq.symm
  · rfl

end SortSpec

end ResourceQuery
