import ResourceQuery.Proofs.Pipeline.FieldReference
import ResourceQuery.Proofs.Pipeline.Rows

/-!
Projecting rows onto one field. The field is held under the written name of its path, which is one
name however long the path is. A path of one segment finds the field there again. A longer one does
not, because its first segment alone is no name of the projected row.
-/

set_option autoImplicit false

namespace ResourceQuery

namespace Path

variable {f : Path}

theorem lookup_of_segment {segment : Segment} (h : f.segments = [segment]) (r : Record) :
    f.lookup r = match Record.get? segment.key r with
      | some v => .ok v
      | none => .error (.missingField f.name) := by
  rw [lookup, h]
  simp only [walk, step]
  cases Record.get? segment.key r <;> rfl

theorem lookup_of_missing {segment : Segment} {rest : List Segment}
    (h : f.segments = segment :: rest) {r : Record} (hr : Record.get? segment.key r = none) :
    f.lookup r = .error (.missingField f.name) := by
  rw [lookup, h]
  simp only [walk, step, hr]
  rfl

/-- What is held under the written name of a path. -/
def held (f : Path) (v : Value) : Record :=
  [(f.name, v)]

theorem lookup_held {segment : Segment} (h : f.segments = [segment]) (hkey : segment.key = f.name)
    (v : Value) : f.lookup (f.held v) = .ok v := by
  rw [lookup_of_segment h, held, Record.get?, if_pos hkey.symm]

theorem lookup_held_of_ne {segment : Segment} {rest : List Segment}
    (h : f.segments = segment :: rest) (hkey : segment.key ≠ f.name) (v : Value) :
    f.lookup (f.held v) = .error (.missingField f.name) := by
  refine lookup_of_missing h ?_
  rw [held, Record.get?, if_neg hkey.symm, Record.get?]

theorem extract_held (h : ∀ v, f.lookup (f.held v) = .ok v) (vs : List Value) :
    f.extract (vs.map f.held) = .ok vs := by
  rw [extract, mapM_eq_ok_iff, List.forall₂_map_left_iff, List.forall₂_same]
  exact fun v _ ↦ h v

/-- A path of one part finds what is held under its name, if its name is no other spelling of a
number. -/
theorem extract_held_of_plain {reference : Value} (hf : ofValue reference = .ok f)
    (hdot : '.' ∉ f.name.toList)
    (hnumeral : ∀ n, Text.readInt64? f.name.toList = some n → f.name.toList = Text.int64Digits n)
    {rows : List Record} {vs : List Value} (h : f.extract rows = .ok vs) :
    f.extract (vs.map f.held) = .ok vs := by
  obtain ⟨ps, hps, -, rfl⟩ := ofValue_eq_ok_iff.1 hf
  rw [dot_mem_name_iff (dot_not_mem_of_parts hps), Nat.not_le, Nat.lt_succ_iff] at hdot
  rcases ps with _ | ⟨p, _ | ⟨q, ps⟩⟩
  · -- A path without parts leads nowhere, so that there were no rows.
    cases rows with
    | nil =>
      cases h
      rfl
    | cons r rows =>
      rw [extract, List.mapM_cons] at h
      cases h
  · exact extract_held (lookup_held rfl (Segment.key_ofText hnumeral)) vs
  · simp at hdot

/-- A path of several parts does not find what is held under its name. -/
theorem extract_held_of_dotted {reference : Value} (hf : ofValue reference = .ok f)
    (hdot : '.' ∈ f.name.toList) (vs : List Value) :
    f.extract (vs.map f.held) =
      if vs.isEmpty then .ok [] else .error (.missingField f.name) := by
  obtain ⟨ps, hps, -, rfl⟩ := ofValue_eq_ok_iff.1 hf
  have hparts := dot_not_mem_of_parts hps
  have hlength := (dot_mem_name_iff hparts).1 hdot
  rcases ps with _ | ⟨p, ps⟩
  · simp at hlength
  · have hkey : (Segment.ofText p).key ≠ (ofParts (p :: ps)).name := by
      intro heq
      rw [← heq] at hdot
      exact Segment.dot_not_mem_key_ofText (hparts p List.mem_cons_self) hdot
    cases vs with
    | nil => rfl
    | cons v vs =>
      rw [extract, List.map_cons, List.mapM_cons, lookup_held_of_ne rfl hkey]
      rfl

end Path

namespace State

variable {f : Path} {s : State} {rows : List Record}

theorem extractValues_eq_ok_iff {t : State} :
    s.extractValues f = .ok t ↔
      ∃ rows vs, s.rows? = some rows ∧ f.extract rows = .ok vs ∧ t = .values vs := by
  cases h : s.rows? with
  | some rows =>
    rw [extractValues_of_rows? h, bind_eq_ok_iff]
    simp [eq_comm]
  | none => simp [extractValues, State.rows, h]

theorem project_singleton (f : Path) (r : Record) :
    project [f] r = (f.lookup r >>= fun v ↦ .ok (f.held v)) := by
  rw [project, List.mapM_cons]
  cases f.lookup r <;> rfl

/-- Rows from which a field can be extracted are projected onto it, without another change. -/
theorem exists_select {vs : List Value} (hrows : s.rows? = some rows)
    (h : f.extract rows = .ok vs) :
    ∃ selected, s.select [f] = .ok selected ∧ selected.kind = s.kind ∧
      selected.rows? = some (vs.map f.held) := by
  have hproject : rows.mapM (project [f]) = .ok (vs.map f.held) := by
    rw [mapM_eq_ok_iff, List.forall₂_map_right_iff]
    refine (mapM_eq_ok_iff.1 h).imp fun r v hv ↦ ?_
    rw [project_singleton, hv, ok_bind]
  refine ⟨s.withRows (vs.map f.held), ?_, kind_withRows _, rows?_withRows hrows _⟩
  rw [select_of_rows hrows, hproject, ok_bind]

end State

/-- Where a field can be extracted from the rows of a state, the rows can be projected onto it: each
becomes the value of the field under the written name of the reference. The reference leads to the
same values in the projected rows if its name has no dot and is no other spelling of a number. With
a dot in its name it leads to nothing in them. -/
theorem Stage.values_after_select {reference : Value} {f : Path}
    (hf : Path.ofValue reference = .ok f) {s t : State} (h : (Stage.values f).run s = .ok t) :
    ∃ vs selected, t = .values vs ∧ (Stage.select [f]).run s = .ok selected ∧
      selected.kind = s.kind ∧ selected.rows? = some (vs.map fun v ↦ [(f.name, v)]) ∧
      ('.' ∉ f.name.toList →
        (∀ n, Text.readInt64? f.name.toList = some n → f.name.toList = Text.int64Digits n) →
        (Stage.values f).run selected = .ok t) ∧
      ('.' ∈ f.name.toList → (Stage.values f).run selected =
        if vs.isEmpty then .ok t else .error (.missingField f.name)) := by
  obtain ⟨rows, vs, hrows, hvs, rfl⟩ := State.extractValues_eq_ok_iff.1 h
  obtain ⟨selected, hselect, hkind, hheld⟩ := State.exists_select hrows hvs
  have hagain : (Stage.values f).run selected =
      (f.extract (vs.map f.held) >>= fun vs ↦ .ok (.values vs)) :=
    State.extractValues_of_rows? hheld
  refine ⟨vs, selected, rfl, hselect, hkind, hheld, fun hdot hnumeral ↦ ?_, fun hdot ↦ ?_⟩
  · rw [hagain, Path.extract_held_of_plain hf hdot hnumeral hvs]
    rfl
  · rw [hagain, Path.extract_held_of_dotted hf hdot]
    cases vs <;> rfl

/-- A year is a name made of digits, and leads to the same values again. -/
theorem Stage.values_after_select_year :
    let f : Path := ⟨"2020", [.index 2020]⟩
    let s : State := .grouped [[("region", .string "north"), ("2020", .integer 3)],
      [("2020", .null)]]
    Path.ofValue (.integer 2020) = .ok f ∧
      (Stage.values f).run s = .ok (.values [.integer 3, .null]) ∧
      ∃ selected, (Stage.select [f]).run s = .ok selected ∧
        (Stage.values f).run selected = .ok (.values [.integer 3, .null]) := by
  intro f s
  have hf : Path.ofValue (.integer 2020) = .ok f := rfl
  have hvalues : (Stage.values f).run s = .ok (.values [.integer 3, .null]) := rfl
  obtain ⟨_, selected, -, hselect, -, -, hplain, -⟩ := values_after_select hf hvalues
  refine ⟨hf, hvalues, selected, hselect, hplain (by decide) fun n hn ↦ ?_⟩
  have hread : Text.readInt64? "2020".toList = some 2020 := by
    decide
  obtain rfl : n = 2020 := Option.some.inj (hn.symm.trans hread)
  decide

/-- A field of a field is projected under its dotted name, and the reference does not lead there. -/
theorem Stage.values_after_select_not_total :
    ¬ ∀ (reference : Value) (f : Path) (s t : State), Path.ofValue reference = .ok f →
      (Stage.values f).run s = .ok t →
        ∃ selected, (Stage.select [f]).run s = .ok selected ∧
          (Stage.values f).run selected = .ok t := by
  intro h
  have hf : Path.ofValue (.string "owner.name") =
      .ok ⟨"owner.name", [.field "owner", .field "name"]⟩ := rfl
  obtain ⟨selected, hselect, hvalues⟩ := h _ _
    (.records [[("owner", .object [("name", .string "ann")])]]) (.values [.string "ann"]) hf rfl
  cases hselect
  cases hvalues

end ResourceQuery
