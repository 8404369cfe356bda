import ResourceQuery.Pipeline.State
import ResourceQuery.Proofs.Except

/-!
Values and JSON, back and forth. The kinds of values that JSON has no kind for are lost: a decimal,
a date, a time and an identifier come back as strings and an epoch as a float, and a float that is
not finite comes back as null. All other values come back as they were, however deep they are
nested, and so do records of them.
-/

set_option autoImplicit false

namespace ResourceQuery

open Number (Binary64)

theorem map_eq_self_iff {α : Type} {f : α → α} {as : List α} :
    as.map f = as ↔ ∀ a ∈ as, f a = a := by
  have h := List.map_inj_left (l := as) (f := f) (g := id)
  rwa [List.map_id] at h

/-- Data that JSON has, nested to any depth. -/
inductive Value.IsJsonData : Value → Prop
  | null : IsJsonData .null
  | boolean (b : Bool) : IsJsonData (.boolean b)
  | integer (n : Int64) : IsJsonData (.integer n)
  | float {x : Binary64} : x.isFinite = true → IsJsonData (.float x)
  | string (text : String) : IsJsonData (.string text)
  | array {items : List Value} : (∀ v ∈ items, IsJsonData v) → IsJsonData (.array items)
  | object {fields : Record} : (∀ field ∈ fields, IsJsonData field.2) → IsJsonData (.object fields)

/-- JSON of which every float is finite, as it is in every JSON text. -/
inductive Json.IsFinite : Json → Prop
  | null : IsFinite .null
  | boolean (b : Bool) : IsFinite (.boolean b)
  | integer (n : Int64) : IsFinite (.integer n)
  | float {x : Binary64} : x.isFinite = true → IsFinite (.float x)
  | string (text : String) : IsFinite (.string text)
  | array {items : List Json} : (∀ j ∈ items, IsFinite j) → IsFinite (.array items)
  | object {fields : List (String × Json)} :
      (∀ field ∈ fields, IsFinite field.2) → IsFinite (.object fields)

namespace Value

theorem isFinite_jsonOfFloat (x : Binary64) : (jsonOfFloat x).IsFinite := by
  unfold jsonOfFloat
  split
  · next h => exact .float h
  · exact .null

mutual

/-- No value has a float in its JSON that is not finite. -/
theorem isFinite_toJson : (v : Value) → v.toJson.IsFinite
  | .null => .null
  | .boolean b => .boolean b
  | .integer n => .integer n
  | .float x | .epoch x => isFinite_jsonOfFloat x
  | .string _ | .decimal _ | .date _ | .dateTime _ | .uuid _ => .string _
  | .array items => .array (isFinite_toJsonItems items)
  | .object fields => .object (isFinite_toJsonFields fields)

theorem isFinite_toJsonItems : (items : List Value) → ∀ j ∈ toJsonItems items, j.IsFinite
  | [] => List.forall_mem_nil _
  | v :: items => List.forall_mem_cons.2 ⟨isFinite_toJson v, isFinite_toJsonItems items⟩

theorem isFinite_toJsonFields :
    (fields : Record) → ∀ field ∈ toJsonFields fields, field.2.IsFinite
  | [] => List.forall_mem_nil _
  | (_, v) :: fields => List.forall_mem_cons.2 ⟨isFinite_toJson v, isFinite_toJsonFields fields⟩

end

theorem ofJsonItems_eq_map (items : List Json) : ofJsonItems items = items.map ofJson := by
  induction items with
  | nil => rfl
  | cons j items ih => rw [ofJsonItems, ih, List.map_cons]

theorem ofJsonFields_eq_map (fields : List (String × Json)) :
    ofJsonFields fields = fields.map fun field ↦ (field.1, ofJson field.2) := by
  induction fields with
  | nil => rfl
  | cons field fields ih => rw [ofJsonFields, ih, List.map_cons]

theorem toJsonItems_eq_map (items : List Value) : toJsonItems items = items.map toJson := by
  induction items with
  | nil => rfl
  | cons v items ih => rw [toJsonItems, ih, List.map_cons]

theorem toJsonFields_eq_map (fields : Record) :
    toJsonFields fields = fields.map fun field ↦ (field.1, toJson field.2) := by
  induction fields with
  | nil => rfl
  | cons field fields ih => rw [toJsonFields, ih, List.map_cons]

/-- Whatever is read from JSON is data that JSON has. -/
theorem isJsonData_ofJson {j : Json} (h : j.IsFinite) : (ofJson j).IsJsonData := by
  induction h with
  | null => exact .null
  | boolean b => exact .boolean b
  | integer n => exact .integer n
  | float h => exact .float h
  | string text => exact .string text
  | array _ ih =>
    rw [ofJson, ofJsonItems_eq_map]
    exact .array (List.forall_mem_map.2 ih)
  | object _ ih =>
    rw [ofJson, ofJsonFields_eq_map]
    exact .object (List.forall_mem_map.2 ih)

theorem ofJson_toJson {v : Value} (h : v.IsJsonData) : ofJson v.toJson = v := by
  induction h with
  | null | boolean | integer | string => rfl
  | float h => rw [toJson, jsonOfFloat, if_pos h, ofJson]
  | array _ ih =>
    rw [toJson, ofJson, toJsonItems_eq_map, ofJsonItems_eq_map, List.map_map]
    exact congrArg array (map_eq_self_iff.2 ih)
  | object _ ih =>
    rw [toJson, ofJson, toJsonFields_eq_map, ofJsonFields_eq_map, List.map_map]
    exact congrArg object (map_eq_self_iff.2 fun field h ↦ Prod.ext rfl (ih field h))

theorem toJson_ofJson {j : Json} (h : j.IsFinite) : (ofJson j).toJson = j := by
  induction h with
  | null | boolean | integer | string => rfl
  | float h => rw [ofJson, toJson, jsonOfFloat, if_pos h]
  | array _ ih =>
    rw [ofJson, toJson, toJsonItems_eq_map, ofJsonItems_eq_map, List.map_map]
    exact congrArg Json.array (map_eq_self_iff.2 ih)
  | object _ ih =>
    rw [ofJson, toJson, toJsonFields_eq_map, ofJsonFields_eq_map, List.map_map]
    exact congrArg Json.object (map_eq_self_iff.2 fun field h ↦ Prod.ext rfl (ih field h))

theorem ofJson_toJson_eq_self_iff {v : Value} : ofJson v.toJson = v ↔ v.IsJsonData :=
  ⟨fun h ↦ h ▸ isJsonData_ofJson (isFinite_toJson v), ofJson_toJson⟩

theorem toJson_ofJson_eq_self_iff {j : Json} : (ofJson j).toJson = j ↔ j.IsFinite :=
  ⟨fun h ↦ h ▸ isFinite_toJson (ofJson j), toJson_ofJson⟩

theorem isJsonData_object_iff {fields : Record} :
    (object fields).IsJsonData ↔ ∀ field ∈ fields, field.2.IsJsonData := by
  constructor
  · intro h
    cases h with
    | object h => exact h
  · exact .object

end Value

theorem Record.collect_objects (rows : List Record) (index : Nat) :
    listOfJson.collect index (rows.map .object) = .ok rows := by
  induction rows generalizing index with
  | nil => rfl
  | cons row rows ih => rw [List.map_cons, listOfJson.collect, ih, ok_bind, pure_eq_ok]

/-- An array of objects is always read as records, each object on its own. -/
theorem Record.listOfJson_objects (rows : List (List (String × Json))) :
    listOfJson (.array (rows.map .object)) = .ok (rows.map Value.ofJsonFields) := by
  have hread : Value.ofJson (.array (rows.map .object)) =
      .array ((rows.map Value.ofJsonFields).map .object) := by
    rw [Value.ofJson, Value.ofJsonItems_eq_map, List.map_map, List.map_map]
    rfl
  rw [listOfJson, hread]
  exact collect_objects _ 0

theorem Record.listOfJson_toJson (rows : List Record) :
    listOfJson (State.records rows).toJson =
      .ok (rows.map fun row ↦ Value.ofJsonFields (Value.toJsonFields row)) := by
  have hobjects : (State.records rows).toJson =
      .array ((rows.map Value.toJsonFields).map .object) := by
    rw [State.toJson, State.toValue, Value.toJson, Value.toJsonItems_eq_map, List.map_map,
      List.map_map]
    rfl
  rw [hobjects, listOfJson_objects, List.map_map]
  rfl

/-- A value comes back from its JSON exactly if it is data that JSON has, JSON comes back from its
value exactly if its floats are finite, and records come back exactly if all their fields do. -/
theorem Value.json_lossless :
    (∀ v : Value, ofJson v.toJson = v ↔ v.IsJsonData) ∧
      (∀ j : Json, (ofJson j).toJson = j ↔ j.IsFinite) ∧
      ∀ rows : List Record, Record.listOfJson (State.records rows).toJson = .ok rows ↔
        ∀ row ∈ rows, ∀ field ∈ row, field.2.IsJsonData := by
  refine ⟨fun v ↦ ofJson_toJson_eq_self_iff, fun j ↦ toJson_ofJson_eq_self_iff, fun rows ↦ ?_⟩
  have hrow (row : Record) : ofJsonFields (toJsonFields row) = row ↔
      ∀ field ∈ row, field.2.IsJsonData := by
    rw [← isJsonData_object_iff, ← ofJson_toJson_eq_self_iff, toJson, ofJson, object.injEq]
  rw [Record.listOfJson_toJson, Except.ok.injEq]
  simp only [map_eq_self_iff, hrow]

end ResourceQuery
