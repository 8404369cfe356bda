import ResourceQuery.Value.Basic

/-!
The parts of a value: the items of an array by their position and the fields of an object by their
name. A path leads through parts of parts, and what holds of a value whenever it holds of its parts
holds of every value.
-/

set_option autoImplicit false

namespace ResourceQuery

theorem Record.mem_of_get? {name : String} {r : Record} {x : Value} (h : get? name r = some x) :
    (name, x) ∈ r := by
  induction r with
  | nil => simp [get?] at h
  | cons field rest ih =>
    obtain ⟨other, y⟩ := field
    rw [get?] at h
    split at h
    · next heq =>
      obtain rfl := Option.some.inj h
      exact heq ▸ List.mem_cons_self
    · exact List.mem_cons_of_mem _ (ih h)

namespace Value

inductive Step where
  | item (position : Nat)
  | field (name : String)

def part? : Step → Value → Option Value
  | .item i, .array items => items[i]?
  | .field name, .object fields => Record.get? name fields
  | _, _ => none

def at? : List Step → Value → Option Value
  | [], a => some a
  | step :: path, a => (part? step a).bind (at? path)

theorem sizeOf_lt_of_part? {step : Step} {a x : Value} (h : part? step a = some x) :
    sizeOf x < sizeOf a := by
  unfold part? at h
  split at h
  · have := List.sizeOf_lt_of_mem (List.mem_of_getElem? h)
    rw [array.sizeOf_spec]
    omega
  · have := List.sizeOf_lt_of_mem (Record.mem_of_get? h)
    rw [Prod.mk.sizeOf_spec] at this
    rw [object.sizeOf_spec]
    omega
  · cases h

theorem induction_parts {motive : Value → Prop}
    (h : ∀ a, (∀ step x, part? step a = some x → motive x) → motive a) (a : Value) : motive a :=
  h a fun _ x _ ↦ induction_parts h x
termination_by sizeOf a
decreasing_by exact sizeOf_lt_of_part? ‹_›

end Value

end ResourceQuery
