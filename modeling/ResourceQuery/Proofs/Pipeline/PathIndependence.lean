import ResourceQuery.Proofs.Pipeline.Assignment
import ResourceQuery.Proofs.Value.Parts

/-!
What an assignment leaves alone. Two paths may go the same way through a record for a while, even
where they write the same position of an array differently. Once they go on to different fields or
different items, assigning to one of them does not show on the other, whether that one leads to a
value or fails.
-/

set_option autoImplicit false

namespace ResourceQuery

/-- The step that a segment means in a value: to the field of an object under its text, or to the
item of an array at its position. -/
def Segment.step? (segment : Segment) : Value → Option Value.Step
  | .object _ => some (.field segment.key)
  | .array items =>
    match segment with
    | .index n => (resolveIndex n items.length).map .item
    | .field _ => none
  | _ => none

namespace Path

variable {name other : String} {segment next : Segment} {step : Value.Step} {p q : List Segment}
  {v v' x value : Value}

/-- Two ways that part in a value: for as long as they go together they mean the same steps, however
these are written, and then they do not. Where they part, one of them may mean no step at all. -/
inductive Diverge : Value → List Segment → List Segment → Prop
  | here {v : Value} {segment next : Segment} {p q : List Segment}
      (h : segment.step? v ≠ next.step? v) : Diverge v (segment :: p) (next :: q)
  | inside {v x : Value} {step : Value.Step} {segment next : Segment} {p q : List Segment}
      (hsegment : segment.step? v = some step) (hnext : next.step? v = some step)
      (hpart : Value.part? step v = some x) (h : Diverge x p q) :
      Diverge v (segment :: p) (next :: q)

theorem Diverge.ne_nil (h : Diverge v p q) : p ≠ [] ∧ q ≠ [] := by
  cases h <;> exact ⟨List.cons_ne_nil _ _, List.cons_ne_nil _ _⟩

theorem step_of_part? (hstep : segment.step? v = some step) (hpart : Value.part? step v = some x) :
    Path.step name v segment = .ok x := by
  rw [step_eq_ok_iff]
  cases v with
  | object fields =>
    cases hstep
    exact .inl ⟨fields, rfl, hpart⟩
  | array items =>
    cases segment with
    | field key => cases hstep
    | index n =>
      obtain ⟨i, hi, rfl⟩ := Option.map_eq_some_iff.1 hstep
      exact .inr ⟨items, n, i, rfl, rfl, itemAt?_eq_some_iff.2 ⟨hi, hpart⟩⟩
  | _ => cases hstep

/-- Replacing a part neither changes the names of the fields that segments mean nor the positions of
the items. -/
theorem step?_of_replace (h : replace name value [segment] v = .ok v') (next : Segment) :
    next.step? v' = next.step? v := by
  obtain ⟨fields, rfl, rfl⟩ | ⟨items, n, i, old, rfl, rfl, -, rfl⟩ :=
    replace_singleton_eq_ok_iff.1 h
  · rfl
  · cases next with
    | field key => rfl
    | index m => rw [Segment.step?, Segment.step?, List.length_set]

theorem part?_of_replace (h : replace name value [segment] v = .ok v')
    (hstep : segment.step? v = some step) : Value.part? step v' = some value := by
  obtain ⟨fields, rfl, rfl⟩ | ⟨items, n, i, old, rfl, rfl, hi, rfl⟩ :=
    replace_singleton_eq_ok_iff.1 h
  · cases hstep
    exact Record.get?_insert_self _ _ _
  · obtain ⟨j, hj, rfl⟩ := Option.map_eq_some_iff.1 hstep
    obtain ⟨hi, -⟩ := itemAt?_eq_some_iff.1 hi
    obtain rfl := Option.some.inj (hi.symm.trans hj)
    exact List.getElem?_set_self (resolveIndex_lt hi)

theorem itemAt?_set_of_ne {n : Int64} {items : List Value} {i : Nat}
    (h : resolveIndex n items.length ≠ some i) (value : Value) :
    itemAt? n (items.set i value) = itemAt? n items := by
  rw [itemAt?, itemAt?, List.length_set]
  refine Option.bind_congr fun j hj ↦ ?_
  rw [List.getElem?_set_ne]
  rintro rfl
  exact h hj

/-- A segment that means another step than the one replaced leads to what it led to before. -/
theorem step_of_replace_of_ne (h : replace name value [segment] v = .ok v')
    (hne : segment.step? v ≠ next.step? v) :
    Path.step other v' next = Path.step other v next := by
  obtain ⟨fields, rfl, rfl⟩ | ⟨items, n, i, old, rfl, rfl, hi, rfl⟩ :=
    replace_singleton_eq_ok_iff.1 h
  · have hkey : next.key ≠ segment.key := by
      intro hkey
      exact hne (by rw [Segment.step?, Segment.step?, hkey])
    rw [step_object, step_object, Record.get?_insert_of_ne hkey]
  · cases next with
    | field key => rfl
    | index m =>
      obtain ⟨hi, -⟩ := itemAt?_eq_some_iff.1 hi
      have hposition : resolveIndex m items.length ≠ some i := by
        intro hm
        exact hne (by rw [Segment.step?, Segment.step?, hi, hm])
      rw [step_array, step_array, itemAt?_set_of_ne hposition]

/-- Whatever is put at the end of a way, its first segment has a part replaced. -/
theorem exists_replace_singleton (h : replace name value (segment :: p) v = .ok v') :
    ∃ part, replace name part [segment] v = .ok v' := by
  by_cases hp : p = []
  · exact ⟨value, hp ▸ h⟩
  · obtain ⟨_, part, -, -, hpart⟩ := (replace_cons_eq_ok_iff hp).1 h
    exact ⟨part, hpart⟩

theorem walk_replace_of_diverge (h : Diverge v p q) (hreplace : replace name value p v = .ok v') :
    walk other v' q = walk other v q := by
  induction h generalizing v' with
  | here hne =>
    obtain ⟨part, hpart⟩ := exists_replace_singleton hreplace
    rw [walk, walk, step_of_replace_of_ne hpart hne]
  | @inside v x step segment next p q hsegment hnext hx hrest ih =>
    obtain ⟨old, part, hold, hpart, hset⟩ := (replace_cons_eq_ok_iff hrest.ne_nil.1).1 hreplace
    obtain rfl : x = old := Except.ok.inj ((step_of_part? hsegment hx).symm.trans hold)
    have hnext' : next.step? v' = some step := (step?_of_replace hset next).trans hnext
    have hstep : Path.step other v' next = .ok part :=
      step_of_part? hnext' (part?_of_replace hset hsegment)
    rw [walk, walk, hstep, step_of_part? hnext hx, ok_bind, ok_bind]
    exact ih hpart

/-- Assigning to a path leaves alone what a path that parts from it in the record leads to: it leads
to the same value as before, or fails with the same error. -/
theorem lookup_assign_of_diverge {p q : Path} {r s : Record}
    (h : Diverge (.object r) p.segments q.segments) (hassign : p.assign r value = .ok s) :
    q.lookup s = q.lookup r := by
  obtain ⟨hp, hq⟩ := h.ne_nil
  have hreplace : replace p.name value p.segments (.object r) = .ok (.object s) :=
    (replace_segments_eq_ok_iff hp).2 ⟨s, hassign, rfl⟩
  rw [lookup_segments hq, lookup_segments hq]
  exact walk_replace_of_diverge h hreplace

/-- The last of two tags is the second one. Its label is changed, and its color is not. -/
theorem color_of_labelled_tag :
    let tag (label : String) : Value := .object [("label", .string label), ("color", .string "red")]
    let r (label : String) : Record := [("tags", .array [.null, tag label])]
    let p : Path := ⟨"tags.-1.label", [.field "tags", .index (-1), .field "label"]⟩
    let q : Path := ⟨"tags.1.color", [.field "tags", .index 1, .field "color"]⟩
    ofValue (.string "tags.-1.label") = .ok p ∧ ofValue (.string "tags.1.color") = .ok q ∧
      Diverge (.object (r "old")) p.segments q.segments ∧
      p.assign (r "old") (.string "new") = .ok (r "new") ∧
      q.lookup (r "new") = q.lookup (r "old") ∧ q.lookup (r "old") = .ok (.string "red") := by
  intro tag r p q
  have hlast : Diverge (tag "old") [.field "label"] [.field "color"] :=
    .here (by simp [tag, Segment.step?, Segment.key])
  have hitem : (Segment.index (-1)).step? (.array [.null, tag "old"]) = some (.item 1) := rfl
  have hdiverge : Diverge (.object (r "old")) p.segments q.segments :=
    .inside rfl rfl rfl (.inside hitem rfl rfl hlast)
  have hassign : p.assign (r "old") (.string "new") = .ok (r "new") := rfl
  exact ⟨rfl, rfl, hdiverge, hassign, lookup_assign_of_diverge hdiverge hassign, rfl⟩

end Path

end ResourceQuery
