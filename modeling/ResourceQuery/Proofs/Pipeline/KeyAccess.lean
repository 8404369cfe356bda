import ResourceQuery.Proofs.Pipeline.Projection

/-!
Reaching a field of a record by its own name. A name without dots makes a path of one segment, and a
path of one segment stands for one field, to look at and to replace. This is the field of that name,
also where the name is made of digits, unless the name is another spelling of an integer than its
decimal text: then it is the field that has the decimal text for its name.
-/

set_option autoImplicit false

namespace ResourceQuery

theorem Segment.key_ofText_eq {text : String} {n : Int64}
    (h : Text.readInt64? text.toList = some n) :
    (ofText text).key = String.ofList (Text.int64Digits n) := by
  rw [ofText, h, key]

theorem Segment.key_ofText_iff {text : String} :
    (ofText text).key = text ↔
      ∀ n, Text.readInt64? text.toList = some n → text.toList = Text.int64Digits n := by
  refine ⟨fun h n hn ↦ ?_, key_ofText⟩
  rw [key_ofText_eq hn] at h
  rw [← h, String.toList_ofList]

namespace Path

theorem ofValue_of_name {name : String} (hempty : name ≠ "") (hdot : '.' ∉ name.toList) :
    ofValue (.string name) = .ok ⟨name, [.ofText name]⟩ := by
  have hparts : parts (.string name) = .ok [name] := by
    rw [parts_string, pieces_of_no_dot hdot]
  rw [ofValue_eq_ok_iff]
  exact ⟨[name], hparts, by simpa using hempty.symm, rfl⟩

theorem assign_of_segment {p : Path} {segment : Segment} (h : p.segments = [segment]) (r : Record)
    (value : Value) : p.assign r value = .ok (Record.insert segment.key value r) := by
  rw [assign, h]
  cases hold : Record.get? segment.key r <;> simp [hold, child, replace]

/-- Whether a path stands for a field of a record: it leads to what is held under that name, and
assigning to it replaces this and leaves all other fields as they are. -/
structure StandsFor (p : Path) (name : String) (r : Record) : Prop where
  lookup_iff : ∀ v, p.lookup r = .ok v ↔ Record.get? name r = some v
  assign : ∀ v, ∃ s, p.assign r v = .ok s ∧ Record.get? name s = some v ∧
    ∀ other, other ≠ name → Record.get? other s = Record.get? other r

theorem standsFor_of_segment {p : Path} {segment : Segment} (h : p.segments = [segment])
    (r : Record) : p.StandsFor segment.key r where
  lookup_iff v := by
    rw [lookup_of_segment h]
    cases Record.get? segment.key r <;> simp
  assign v := ⟨_, assign_of_segment h r v, Record.get?_insert_self segment.key v r,
    fun _ hother ↦ Record.get?_insert_of_ne hother v r⟩

/-- A path stands for one field only: where it stood for two, assigning to it would change each of
them and leave it as it is. -/
theorem StandsFor.unique {p : Path} {name other : String} {r : Record} (h : p.StandsFor name r)
    (h' : p.StandsFor other r) : name = other := by
  by_contra hne
  have hheld : ∀ v, Record.get? name r = some v := by
    intro v
    obtain ⟨s, hs, hname, -⟩ := h.assign v
    obtain ⟨s', hs', -, hframe⟩ := h'.assign v
    obtain rfl := Except.ok.inj (hs.symm.trans hs')
    exact (hframe name hne).symm.trans hname
  cases (hheld .null).symm.trans (hheld (.boolean true))

/-- A name that is neither empty nor has a dot is a reference to the field of that name exactly if
it is no other spelling of an integer. If it is one, it refers to the field named by the decimal
text of this integer. -/
theorem standsFor_name_iff {name : String} (hempty : name ≠ "") (hdot : '.' ∉ name.toList)
    (r : Record) :
    ∃ p, ofValue (.string name) = .ok p ∧
      (p.StandsFor name r ↔
        ∀ n, Text.readInt64? name.toList = some n → name.toList = Text.int64Digits n) ∧
      ∀ n, Text.readInt64? name.toList = some n →
        p.StandsFor (String.ofList (Text.int64Digits n)) r := by
  obtain ⟨p, hp, hkey⟩ : ∃ p, ofValue (.string name) = .ok p ∧
      p.StandsFor (Segment.ofText name).key r :=
    ⟨_, ofValue_of_name hempty hdot, standsFor_of_segment rfl r⟩
  refine ⟨p, hp, ?_, fun n hn ↦ Segment.key_ofText_eq hn ▸ hkey⟩
  rw [← Segment.key_ofText_iff]
  exact ⟨fun h ↦ hkey.unique h, fun h ↦ h ▸ hkey⟩

/-- A year is a name of its own, whatever else there is in the record. -/
theorem standsFor_year :
    let r : Record := [("-1", .null), ("2020", .integer 3), ("20", .string "ann")]
    "2020" ≠ "" ∧ '.' ∉ "2020".toList ∧
      ∃ p, ofValue (.string "2020") = .ok p ∧ p.StandsFor "2020" r := by
  intro r
  have hempty : "2020" ≠ "" := by decide
  have hdot : '.' ∉ "2020".toList := by decide
  obtain ⟨p, hp, hiff, -⟩ := standsFor_name_iff hempty hdot r
  refine ⟨hempty, hdot, p, hp, hiff.2 fun n hn ↦ ?_⟩
  have hread : Text.readInt64? "2020".toList = some 2020 := by decide
  obtain rfl : n = 2020 := Option.some.inj (hn.symm.trans hread)
  decide

/-- A name with zeros in front is taken for the number without them. -/
theorem zeros_out_of_reach :
    ¬ ∀ (r : Record) (name : String) (v : Value), Record.get? name r = some v → name ≠ "" →
      '.' ∉ name.toList → ∃ p, ofValue (.string name) = .ok p ∧ p.StandsFor name r := by
  intro h
  have hheld : Record.get? "007" [("007", .integer 1)] = some (.integer 1) := rfl
  obtain ⟨p, hp, hstands⟩ := h _ _ _ hheld (by decide) (by decide)
  obtain rfl : ⟨"007", [.index 7]⟩ = p := Except.ok.inj hp
  cases (hstands.lookup_iff _).2 hheld

end Path

end ResourceQuery
