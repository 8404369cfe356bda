import ResourceQuery.Pipeline.Path
import ResourceQuery.Proofs.Except

/-!
Looking up a path and assigning to it. Both go the same way through objects and arrays, except that
assigning may end at a name that an object does not have yet. What is assigned is found again,
assigning what is found changes nothing, of two assignments the last one counts, and what can be
found can be replaced. A single segment has these laws, and a way that is made of two has them if
both of its parts do.
-/

set_option autoImplicit false

namespace ResourceQuery

/-- The laws of reading a part of something and replacing it, either of which may fail. -/
structure Lens {α β : Type} (get : α → Except EvalError β)
    (set : β → α → Except EvalError α) : Prop where
  get_set : ∀ {a a' : α} {b : β}, set b a = .ok a' → get a' = .ok b
  set_get : ∀ {a : α} {b : β}, get a = .ok b → set b a = .ok a
  set_set : ∀ {a a' : α} {b : β} (c : β), set b a = .ok a' → set c a' = set c a
  exists_set : ∀ {a : α} {b : β} (c : β), get a = .ok b → ∃ a', set c a = .ok a'

namespace Lens

variable {α β γ : Type} {get₁ : α → Except EvalError β} {set₁ : β → α → Except EvalError α}
  {get₂ : β → Except EvalError γ} {set₂ : γ → β → Except EvalError β}
  {get : α → Except EvalError γ} {set : γ → α → Except EvalError α}

/-- Whether a part can be replaced does not depend on what it is replaced by. -/
theorem exists_set_of_set (h : Lens get₁ set₁) {a a' : α} {b : β} (hset : set₁ b a = .ok a')
    (c : β) : ∃ a'', set₁ c a' = .ok a'' ∧ set₁ c a = .ok a'' := by
  obtain ⟨a'', ha''⟩ := h.exists_set c (h.get_set hset)
  exact ⟨a'', ha'', h.set_set c hset ▸ ha''⟩

/-- A part of a part: it is replaced by replacing the outer part by one with the inner part
replaced. -/
theorem comp (h₁ : Lens get₁ set₁) (h₂ : Lens get₂ set₂)
    (hget : ∀ {a c}, get a = .ok c ↔ ∃ b, get₁ a = .ok b ∧ get₂ b = .ok c)
    (hset : ∀ {a a' c}, set c a = .ok a' ↔
      ∃ b b', get₁ a = .ok b ∧ set₂ c b = .ok b' ∧ set₁ b' a = .ok a') : Lens get set where
  get_set h := by
    obtain ⟨b, b', -, hinner, houter⟩ := hset.1 h
    exact hget.2 ⟨b', h₁.get_set houter, h₂.get_set hinner⟩
  set_get h := by
    obtain ⟨b, hb, hc⟩ := hget.1 h
    exact hset.2 ⟨b, b, hb, h₂.set_get hc, h₁.set_get hb⟩
  set_set d h := by
    obtain ⟨b, b', hb, hinner, houter⟩ := hset.1 h
    obtain ⟨e, hfound, hold⟩ := h₂.exists_set_of_set hinner d
    obtain ⟨a'', hfound', hold'⟩ := h₁.exists_set_of_set houter e
    rw [hset.2 ⟨b', e, h₁.get_set houter, hfound, hfound'⟩, hset.2 ⟨b, e, hb, hold, hold'⟩]
  exists_set d h := by
    obtain ⟨b, hb, hc⟩ := hget.1 h
    obtain ⟨b', hb'⟩ := h₂.exists_set d hc
    obtain ⟨a', ha'⟩ := h₁.exists_set b' hb
    exact ⟨a', hset.2 ⟨b, b', hb, hb', ha'⟩⟩

end Lens

namespace Path

variable {name : String} {segment : Segment} {rest : List Segment} {v v' x value : Value}

theorem itemAt?_eq_some_iff {n : Int64} {items : List Value} {i : Nat} :
    itemAt? n items = some (i, x) ↔
      resolveIndex n items.length = some i ∧ items[i]? = some x := by
  simp only [itemAt?, Option.bind_eq_some_iff, Option.map_eq_some_iff, Prod.mk.injEq]
  constructor
  · rintro ⟨_, hi, _, hx, rfl, rfl⟩
    exact ⟨hi, hx⟩
  · rintro ⟨hi, hx⟩
    exact ⟨i, hi, x, hx, rfl, rfl⟩

/-- Replacing an item does not change which position an index means. -/
theorem itemAt?_set {n : Int64} {items : List Value} {i : Nat} (h : itemAt? n items = some (i, x))
    (value : Value) : itemAt? n (items.set i value) = some (i, value) := by
  have hi := (itemAt?_eq_some_iff.1 h).1
  rw [itemAt?_eq_some_iff, List.length_set]
  exact ⟨hi, List.getElem?_set_self (resolveIndex_lt hi)⟩

theorem set_of_itemAt? {n : Int64} {items : List Value} {i : Nat}
    (h : itemAt? n items = some (i, x)) : items.set i x = items := by
  obtain ⟨hlt, rfl⟩ := List.getElem?_eq_some_iff.1 (itemAt?_eq_some_iff.1 h).2
  exact List.set_getElem_self hlt

theorem step_object (fields : Record) :
    step name (.object fields) segment = match Record.get? segment.key fields with
      | some value => .ok value
      | none => .error (.missingField name) := by
  rw [step]
  cases Record.get? segment.key fields <;> rfl

theorem step_array (items : List Value) (n : Int64) :
    step name (.array items) (.index n) = match itemAt? n items with
      | some (_, value) => .ok value
      | none => .error (.missingField name) := by
  rw [step]
  cases itemAt? n items <;> rfl

/-- Where a segment leads to: the field of an object under its text, or the item of an array at its
position. -/
theorem step_eq_ok_iff :
    step name v segment = .ok x ↔
      (∃ fields, v = .object fields ∧ Record.get? segment.key fields = some x) ∨
      ∃ items n i, v = .array items ∧ segment = .index n ∧ itemAt? n items = some (i, x) := by
  cases v with
  | object fields =>
    rw [step_object]
    cases h : Record.get? segment.key fields <;> simp [h]
  | array items =>
    cases segment with
    | field key => simp [step, Except.bind]
    | index n =>
      rw [step_array]
      rcases h : itemAt? n items with _ | ⟨i, old⟩ <;> simp [h]
  | _ => simp [step, Except.bind]

theorem replace_singleton_eq_ok_iff :
    replace name value [segment] v = .ok v' ↔
      (∃ fields, v = .object fields ∧ v' = .object (Record.insert segment.key value fields)) ∨
      ∃ items n i old, v = .array items ∧ segment = .index n ∧ itemAt? n items = some (i, old) ∧
        v' = .array (items.set i value) := by
  cases v with
  | object fields =>
    rw [replace]
    cases Record.get? segment.key fields <;> simp [child, replace, eq_comm]
  | array items =>
    cases segment with
    | field key => simp [replace]
    | index n =>
      rw [replace]
      rcases h : itemAt? n items with _ | ⟨i, old⟩ <;> simp [h, replace, eq_comm]
  | _ => simp [replace]

/-- A longer way has to lead to something after its first segment. -/
theorem replace_cons_eq_ok_iff (hrest : rest ≠ []) :
    replace name value (segment :: rest) v = .ok v' ↔
      ∃ old part, step name v segment = .ok old ∧ replace name value rest old = .ok part ∧
        replace name part [segment] v = .ok v' := by
  obtain ⟨next, rest, rfl⟩ := List.exists_cons_of_ne_nil hrest
  cases v with
  | object fields =>
    rw [replace, step_object]
    cases h : Record.get? segment.key fields with
    | none => simp [child]
    | some old => simp [child, bind_eq_ok_iff, replace, h]
  | array items =>
    cases segment with
    | field key => simp [replace]
    | index n =>
      rw [replace, step_array]
      rcases h : itemAt? n items with _ | ⟨i, old⟩
      · simp
      · simp [bind_eq_ok_iff, replace, h]
  | _ => simp [replace]

theorem replace_object (fields : Record) :
    replace name value [segment] (.object fields) =
      .ok (.object (Record.insert segment.key value fields)) :=
  replace_singleton_eq_ok_iff.2 (.inl ⟨fields, rfl, rfl⟩)

theorem replace_array {items : List Value} {n : Int64} {i : Nat}
    (h : itemAt? n items = some (i, x)) :
    replace name value [.index n] (.array items) = .ok (.array (items.set i value)) :=
  replace_singleton_eq_ok_iff.2 (.inr ⟨items, n, i, x, rfl, rfl, h, rfl⟩)

/-- Reading and replacing mean the same place by a segment. -/
theorem lens_segment (name : String) (segment : Segment) :
    Lens (step name · segment) (replace name · [segment]) where
  get_set h := by
    obtain ⟨fields, rfl, rfl⟩ | ⟨items, n, i, old, rfl, rfl, hi, rfl⟩ :=
      replace_singleton_eq_ok_iff.1 h
    · exact step_eq_ok_iff.2 (.inl ⟨_, rfl, Record.get?_insert_self _ _ _⟩)
    · exact step_eq_ok_iff.2 (.inr ⟨_, n, i, rfl, rfl, itemAt?_set hi _⟩)
  set_get h := by
    obtain ⟨fields, rfl, hfield⟩ | ⟨items, n, i, rfl, rfl, hi⟩ := step_eq_ok_iff.1 h
    · rw [replace_object, Record.insert_of_get? hfield]
    · rw [replace_array hi, set_of_itemAt? hi]
  set_set c h := by
    obtain ⟨fields, rfl, rfl⟩ | ⟨items, n, i, old, rfl, rfl, hi, rfl⟩ :=
      replace_singleton_eq_ok_iff.1 h
    · rw [replace_object, replace_object, Record.insert_insert]
    · rw [replace_array hi, replace_array (itemAt?_set hi _), List.set_set]
  exists_set c h := by
    obtain ⟨fields, rfl, -⟩ | ⟨items, n, i, rfl, rfl, hi⟩ := step_eq_ok_iff.1 h
    · exact ⟨_, replace_object fields⟩
    · exact ⟨_, replace_array hi⟩

theorem walk_singleton (name : String) (v : Value) (segment : Segment) :
    walk name v [segment] = step name v segment := by
  rw [walk]
  cases step name v segment <;> rfl

theorem lens_segments (name : String) (segments : List Segment) :
    Lens (walk name · segments) (replace name · segments) := by
  induction segments with
  | nil =>
    refine ⟨fun h ↦ ?_, fun h ↦ ?_, fun _ _ ↦ rfl, fun c _ ↦ ⟨c, rfl⟩⟩
    · cases h
      rfl
    · cases h
      rfl
  | cons segment rest ih =>
    by_cases hrest : rest = []
    · subst hrest
      simpa only [walk_singleton] using lens_segment name segment
    · refine (lens_segment name segment).comp ih ?_ (replace_cons_eq_ok_iff hrest)
      intro v x
      rw [walk, bind_eq_ok_iff]

theorem lookup_segments {p : Path} (h : p.segments ≠ []) (r : Record) :
    p.lookup r = walk p.name (.object r) p.segments := by
  rw [lookup]
  split
  · next hnil => exact absurd hnil h
  · rfl

/-- A path that has segments is assigned to as these are in the record as a value. -/
theorem replace_segments_eq_ok_iff {p : Path} (h : p.segments ≠ []) {r : Record} :
    replace p.name value p.segments (.object r) = .ok v ↔
      ∃ s, p.assign r value = .ok s ∧ .object s = v := by
  obtain ⟨name, segments⟩ := p
  obtain ⟨segment, rest, rfl⟩ := List.exists_cons_of_ne_nil h
  rw [replace, assign]
  simp only [bind_eq_ok_iff, pure_eq_ok, Except.ok.injEq]
  constructor
  · rintro ⟨old, hold, part, hpart, rfl⟩
    exact ⟨_, ⟨old, hold, part, hpart, rfl⟩, rfl⟩
  · rintro ⟨s, ⟨old, hold, part, hpart, rfl⟩, rfl⟩
    exact ⟨old, hold, part, hpart, rfl⟩

theorem segments_ne_nil_of_lookup {p : Path} {r : Record} (h : p.lookup r = .ok v) :
    p.segments ≠ [] := by
  intro hnil
  rw [lookup, hnil] at h
  cases h

theorem segments_ne_nil_of_assign {p : Path} {r s : Record} (h : p.assign r value = .ok s) :
    p.segments ≠ [] := by
  intro hnil
  rw [assign, hnil] at h
  cases h

/-- What is assigned is found. -/
theorem lookup_of_assign {p : Path} {r s : Record} (h : p.assign r value = .ok s) :
    p.lookup s = .ok value := by
  have hp := segments_ne_nil_of_assign h
  rw [lookup_segments hp]
  exact (lens_segments p.name p.segments).get_set
    ((replace_segments_eq_ok_iff hp).2 ⟨s, h, rfl⟩)

/-- Where a path leads to something, every value can be assigned. -/
theorem exists_assign_of_lookup {p : Path} {r : Record} (h : p.lookup r = .ok v)
    (value : Value) : ∃ s, p.assign r value = .ok s := by
  have hp := segments_ne_nil_of_lookup h
  rw [lookup_segments hp] at h
  obtain ⟨v', hv'⟩ := (lens_segments p.name p.segments).exists_set value h
  obtain ⟨s, hs, -⟩ := (replace_segments_eq_ok_iff hp).1 hv'
  exact ⟨s, hs⟩

/-- The name of the field of a record that a path goes through, which is its first segment as a
name. -/
def leading (p : Path) : Option String :=
  p.segments.head?.map Segment.key

/-- Assigning to a path leaves the fields alone that it does not go through. -/
theorem get?_of_assign {p : Path} {r s : Record} (h : p.assign r value = .ok s) {key : String}
    (hkey : p.leading ≠ some key) : Record.get? key s = Record.get? key r := by
  obtain ⟨name, segments⟩ := p
  obtain ⟨segment, rest, rfl⟩ := List.exists_cons_of_ne_nil (segments_ne_nil_of_assign h)
  simp only [assign, bind_eq_ok_iff, pure_eq_ok, Except.ok.injEq] at h
  obtain ⟨_, -, _, -, rfl⟩ := h
  exact Record.get?_insert_of_ne (fun heq ↦ hkey (congrArg some heq.symm)) _ r

/-- Looking up a path in a record and assigning to it obey the laws, whatever the path is made of:
what is assigned is found, assigning what is found leaves the record as it is, a second assignment
gives what it gives without the first, and where the path leads to something every value can be
assigned. -/
theorem lens_lookup_assign (p : Path) : Lens p.lookup fun value r ↦ p.assign r value := by
  by_cases h : p.segments = []
  · -- A path without segments leads nowhere, and nothing can be assigned to it.
    have hlookup : ∀ r, p.lookup r = .error (.missingField p.name) := fun r ↦ by rw [lookup, h]
    have hassign : ∀ r value, p.assign r value = .error (.missingField p.name) :=
      fun r value ↦ by rw [assign, h]
    constructor <;> simp [hlookup, hassign]
  · have hlens := lens_segments p.name p.segments
    refine ⟨fun hset ↦ ?_, fun hget ↦ ?_, fun c hset ↦ ?_, fun c hget ↦ ?_⟩
    · rw [lookup_segments h]
      exact hlens.get_set ((replace_segments_eq_ok_iff h).2 ⟨_, hset, rfl⟩)
    · rw [lookup_segments h] at hget
      obtain ⟨s, hs, heq⟩ := (replace_segments_eq_ok_iff h).1 (hlens.set_get hget)
      cases heq
      exact hs
    · obtain ⟨v, hsecond, honly⟩ :=
        hlens.exists_set_of_set ((replace_segments_eq_ok_iff h).2 ⟨_, hset, rfl⟩) c
      obtain ⟨s, hs, rfl⟩ := (replace_segments_eq_ok_iff h).1 hsecond
      obtain ⟨t, ht, heq⟩ := (replace_segments_eq_ok_iff h).1 honly
      cases heq
      rw [hs, ht]
    · rw [lookup_segments h] at hget
      obtain ⟨v, hv⟩ := hlens.exists_set c hget
      obtain ⟨s, hs, -⟩ := (replace_segments_eq_ok_iff h).1 hv
      exact ⟨s, hs⟩

/-- The last of some tags is given a label that it did not have, and then another one. -/
theorem lens_of_last_tag :
    let p : Path := ⟨"tags.-1.label", [.field "tags", .index (-1), .field "label"]⟩
    let tags (last : Record) : Record :=
      [("tags", .array [.object [("label", .string "old")], .object last])]
    let labelled := tags [("label", .string "new")]
    ofValue (.string "tags.-1.label") = .ok p ∧
      p.assign (tags []) (.string "new") = .ok labelled ∧
      p.lookup labelled = .ok (.string "new") ∧
      p.assign labelled (.string "new") = .ok labelled ∧
      p.assign labelled .null = p.assign (tags []) .null := by
  intro p tags labelled
  have hset : p.assign (tags []) (.string "new") = .ok labelled := rfl
  have hget : p.lookup labelled = .ok (.string "new") := p.lens_lookup_assign.get_set hset
  exact ⟨rfl, hset, hget, p.lens_lookup_assign.set_get hget,
    p.lens_lookup_assign.set_set .null hset⟩

end Path

end ResourceQuery
