import ResourceQuery.Proofs.Pipeline.FieldReference

/-!
The spellings of a field reference. A reference is made of texts and numbers, alone or in tuples of
tuples. It is read as these are when they are joined with dots, however they were grouped, and the
joined text is the name of the path. So the references to one path are the spellings of its name,
and a name has one path.
-/

set_option autoImplicit false

namespace ResourceQuery

/-- The texts that a reference is made of, in their order and before any of them is split. -/
inductive Value.MadeOf : Value → List String → Prop
  | text (text : String) : MadeOf (.string text) [text]
  | number (n : Int64) : MadeOf (.integer n) [String.ofList (Text.int64Digits n)]
  | nil : MadeOf (.array []) []
  | cons {item : Value} {rest : List Value} {ts us : List String} (hitem : MadeOf item ts)
      (hrest : MadeOf (.array rest) us) : MadeOf (.array (item :: rest)) (ts ++ us)

namespace Path

variable {v : Value} {p : Path} {ps ts : List String}

theorem parts_of_madeOf (h : v.MadeOf ts) : parts v = .ok (ts.flatMap pieces) := by
  induction h with
  | text text => rw [parts_string, List.flatMap_singleton]
  | number n =>
    have hdot : '.' ∉ (String.ofList (Text.int64Digits n)).toList := by
      rw [String.toList_ofList]
      exact Text.dot_not_mem_int64Digits n
    rw [parts, List.flatMap_singleton, pieces_of_no_dot hdot]
  | nil => rfl
  | cons hitem hrest ih ih' =>
    rw [parts] at ih'
    rw [parts, partsOfList, ih, ih', List.flatMap_append]
    rfl

mutual

theorem exists_madeOf_of_parts : ∀ {v : Value} {ps : List String}, parts v = .ok ps →
    ∃ ts, v.MadeOf ts
  | .string text, _, _ => ⟨_, .text text⟩
  | .integer n, _, _ => ⟨_, .number n⟩
  | .array items, ps, h => by
    rw [parts] at h
    exact exists_madeOf_of_partsOfList h
  | .null, _, h | .boolean _, _, h | .float _, _, h | .decimal _, _, h | .date _, _, h
  | .dateTime _, _, h | .epoch _, _, h | .uuid _, _, h | .object _, _, h => by
    simp [parts] at h

theorem exists_madeOf_of_partsOfList : ∀ {items : List Value} {ps : List String},
    partsOfList items = .ok ps → ∃ ts, (Value.array items).MadeOf ts
  | [], _, _ => ⟨_, .nil⟩
  | item :: rest, ps, h => by
    rw [partsOfList] at h
    simp only [bind_eq_ok_iff] at h
    obtain ⟨first, hfirst, more, hmore, -⟩ := h
    obtain ⟨ts, hts⟩ := exists_madeOf_of_parts hfirst
    obtain ⟨us, hus⟩ := exists_madeOf_of_partsOfList hmore
    exact ⟨_, .cons hts hus⟩

end

theorem parts_eq_ok_iff : parts v = .ok ps ↔ ∃ ts, v.MadeOf ts ∧ ts.flatMap pieces = ps := by
  constructor
  · intro h
    obtain ⟨ts, hts⟩ := exists_madeOf_of_parts h
    exact ⟨ts, hts, Except.ok.inj ((parts_of_madeOf hts).symm.trans h)⟩
  · rintro ⟨ts, hts, rfl⟩
    exact parts_of_madeOf hts

/-- A reference is read as the text that it is made of, and fails where this text fails. -/
theorem ofValue_of_madeOf (h : v.MadeOf ts) (hne : ts ≠ []) :
    ofValue v = ofValue (.string (".".intercalate ts)) := by
  rw [ofValue, ofValue, parts_of_madeOf h, parts_string, pieces_intercalate hne]

theorem exists_madeOf_of_ofValue (h : ofValue v = .ok p) :
    ∃ ts, v.MadeOf ts ∧ ".".intercalate ts = p.name ∧ (ts = [] → p.segments = []) := by
  obtain ⟨ps, hps, -, rfl⟩ := ofValue_eq_ok_iff.1 h
  obtain ⟨ts, hts, rfl⟩ := parts_eq_ok_iff.1 hps
  refine ⟨ts, hts, (intercalate_flatMap_pieces ts).symm, ?_⟩
  rintro rfl
  rfl

/-- A path that has segments is what its own name is read as. It is the only path of this name, and
the references to it are exactly what spells the name, be it dotted, a tuple, or a mixture of
both. -/
theorem determined_by_name (h : ofValue v = .ok p) (hne : p.segments ≠ []) :
    ofValue (.string p.name) = .ok p ∧
      (∀ w q, ofValue w = .ok q → q.name = p.name → q = p) ∧
      ∀ w, ofValue w = .ok p ↔ ∃ ts, w.MadeOf ts ∧ ".".intercalate ts = p.name := by
  obtain ⟨ts, hts, hname, hnil⟩ := exists_madeOf_of_ofValue h
  have hself : ofValue (.string p.name) = .ok p := by
    rw [← hname, ← ofValue_of_madeOf hts (mt hnil hne), h]
  have hspelled : ∀ w us, w.MadeOf us → ".".intercalate us = p.name → ofValue w = .ok p := by
    intro w us hus hjoin
    -- A tuple of nothing has the empty name, and the empty text is no reference.
    have husne : us ≠ [] := by
      rintro rfl
      rw [← hjoin] at hself
      cases hself
    rw [ofValue_of_madeOf hus husne, hjoin, hself]
  refine ⟨hself, fun w q hq hqname ↦ ?_, fun w ↦ ⟨fun hw ↦ ?_, ?_⟩⟩
  · obtain ⟨us, hus, hjoin, -⟩ := exists_madeOf_of_ofValue hq
    have hw : ofValue w = .ok p := hspelled w us hus (hjoin.trans hqname)
    exact Except.ok.inj (hq.symm.trans hw)
  · obtain ⟨us, hus, hjoin, -⟩ := exists_madeOf_of_ofValue hw
    exact ⟨us, hus, hjoin⟩
  · rintro ⟨us, hus, hjoin⟩
    exact hspelled w us hus hjoin

/-- The last line of an address, as a tuple in a tuple and as a tuple that is cut elsewhere. -/
theorem determined_by_name_of_last_line :
    let v : Value := .array [.string "address", .array [.string "lines.0", .integer (-1)]]
    let w : Value := .array [.string "address.lines", .integer 0, .array [], .string "-1"]
    let p : Path := ⟨"address.lines.0.-1",
      [.field "address", .field "lines", .index 0, .index (-1)]⟩
    ofValue v = .ok p ∧ p.segments ≠ [] ∧ ofValue (.string "address.lines.0.-1") = .ok p ∧
      (∀ x q, ofValue x = .ok q → q.name = "address.lines.0.-1" → q = p) ∧ ofValue w = .ok p := by
  intro v w p
  have hv : ofValue v = .ok p := rfl
  have hsegments : p.segments ≠ [] := List.cons_ne_nil _ _
  obtain ⟨hself, hunique, hspelled⟩ := determined_by_name hv hsegments
  have hw : w.MadeOf ["address.lines", "0", "-1"] :=
    .cons (.text _) (.cons (.number 0) (.cons .nil (.cons (.text _) .nil)))
  exact ⟨hv, hsegments, hself, hunique, (hspelled w).2 ⟨_, hw, rfl⟩⟩

end Path

end ResourceQuery
