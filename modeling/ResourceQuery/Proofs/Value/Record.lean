import Mathlib.Data.List.Dedup
import Mathlib.Data.List.Induction
import ResourceQuery.Value.Basic

/-!
Records that are made field by field. Such a record has each of the names once, however often it is
given, and holds under it what is given last. So no field is lost exactly if no name is given twice.
-/

set_option autoImplicit false

namespace ResourceQuery.Record

variable {name key : String} {value : Value} {r fields : Record}

theorem mem_names_insert_iff :
    name ∈ (insert key value r).map Prod.fst ↔ name = key ∨ name ∈ r.map Prod.fst := by
  induction r with
  | nil => simp [insert]
  | cons field rest ih =>
    rw [insert]
    split
    · next heq => simp [heq]
    · rw [List.map_cons, List.mem_cons, ih, List.map_cons, List.mem_cons, or_left_comm]

theorem nodup_names_insert (h : (r.map Prod.fst).Nodup) :
    ((insert key value r).map Prod.fst).Nodup := by
  induction r with
  | nil => simp [insert]
  | cons field rest ih =>
    rw [List.map_cons, List.nodup_cons] at h
    rw [insert]
    split
    · exact List.nodup_cons.2 h
    · next hne =>
      rw [List.map_cons, List.nodup_cons, mem_names_insert_iff, not_or]
      exact ⟨⟨hne, h.1⟩, ih h.2⟩

theorem ofFields_append_singleton (fields : Record) (field : String × Value) :
    ofFields (fields ++ [field]) = insert field.1 field.2 (ofFields fields) := by
  rw [ofFields, List.foldl_append]
  rfl

theorem nodup_names_ofFields (fields : Record) : ((ofFields fields).map Prod.fst).Nodup := by
  induction fields using List.reverseRecOn with
  | nil => exact List.nodup_nil
  | append_singleton fields field ih =>
    rw [ofFields_append_singleton]
    exact nodup_names_insert ih

theorem mem_names_ofFields_iff :
    name ∈ (ofFields fields).map Prod.fst ↔ name ∈ fields.map Prod.fst := by
  induction fields using List.reverseRecOn with
  | nil => rfl
  | append_singleton fields field ih =>
    rw [ofFields_append_singleton, mem_names_insert_iff, ih]
    simp [or_comm]

theorem length_ofFields_eq_iff :
    (ofFields fields).length = fields.length ↔ (fields.map Prod.fst).Nodup := by
  have hperm : ((ofFields fields).map Prod.fst).Perm (fields.map Prod.fst).dedup :=
    (List.perm_ext_iff_of_nodup (nodup_names_ofFields fields) (List.nodup_dedup _)).2 fun name ↦ by
      rw [mem_names_ofFields_iff, List.mem_dedup]
  have hlength := hperm.length_eq
  rw [List.length_map] at hlength
  rw [← List.dedup_eq_self, hlength]
  refine ⟨fun h ↦ (List.dedup_sublist _).eq_of_length (h.trans (List.length_map _).symm), ?_⟩
  intro h
  rw [h, List.length_map]

/-- What is given last under a name counts. -/
theorem get?_ofFields (name : String) (fields : Record) :
    get? name (ofFields fields) = get? name fields.reverse := by
  induction fields using List.reverseRecOn with
  | nil => rfl
  | append_singleton fields field ih =>
    rw [ofFields_append_singleton, List.reverse_concat, get?]
    split
    · next heq => rw [← heq, get?_insert_self]
    · next hne => rw [get?_insert_of_ne (Ne.symm hne), ih]

theorem get?_append (name : String) (r s : Record) :
    get? name (r ++ s) = (get? name r).or (get? name s) := by
  induction r with
  | nil => rfl
  | cons field rest ih =>
    rw [List.cons_append, get?, get?]
    split
    · rfl
    · exact ih

theorem get?_eq_none_of_not_mem (h : name ∉ r.map Prod.fst) : get? name r = none := by
  induction r with
  | nil => rfl
  | cons field rest ih =>
    rw [List.map_cons, List.mem_cons, not_or] at h
    rw [get?, if_neg (Ne.symm h.1), ih h.2]

theorem get?_of_mem (h : (r.map Prod.fst).Nodup) (hmem : (name, value) ∈ r) :
    get? name r = some value := by
  induction r with
  | nil => cases hmem
  | cons field rest ih =>
    rw [List.map_cons, List.nodup_cons] at h
    rw [get?]
    obtain rfl | hmem := List.mem_cons.1 hmem
    · rw [if_pos rfl]
    · have hne : field.1 ≠ name := fun heq ↦ h.1 (heq ▸ List.mem_map_of_mem hmem)
      rw [if_neg hne, ih h.2 hmem]

end ResourceQuery.Record
