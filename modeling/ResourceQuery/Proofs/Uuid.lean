import Mathlib.Algebra.Ring.Nat
import ResourceQuery.Uuid

/-!
The text of an identifier reads back as the identifier: the hyphens stand where they are looked for,
and the digits keep their value behind the zeros that fill them up.
-/

set_option autoImplicit false

namespace ResourceQuery.Uuid

open Text.Percent (hexValue?)

/-- The value of hexadecimal digits, the first of which counts most. -/
def Denotes (ds : List Char) (n : Nat) : Prop :=
  ∃ values, ds.mapM hexValue? = some values ∧ values.foldl (fun n v ↦ 16 * n + v) 0 = n

theorem hexValue?_digitChar : ∀ v < 16, hexValue? (Nat.digitChar v) = some v := by
  decide

theorem denotes_digit {v : Nat} (h : v < 16) : Denotes [Nat.digitChar v] v := by
  refine ⟨[v], ?_, by simp⟩
  rw [List.mapM_cons, hexValue?_digitChar v h]
  rfl

theorem Denotes.append_digit {ds : List Char} {n v : Nat} (hds : Denotes ds n) (hv : v < 16) :
    Denotes (ds ++ [Nat.digitChar v]) (16 * n + v) := by
  obtain ⟨values, hvalues, hn⟩ := hds
  refine ⟨values ++ [v], ?_, ?_⟩
  · rw [List.mapM_append, hvalues, List.mapM_cons, hexValue?_digitChar v hv]
    rfl
  · rw [List.foldl_append, hn]
    rfl

theorem Denotes.zero_cons {ds : List Char} {n : Nat} (hds : Denotes ds n) :
    Denotes ('0' :: ds) n := by
  obtain ⟨values, hvalues, hn⟩ := hds
  refine ⟨0 :: values, ?_, ?_⟩
  · have hzero : hexValue? '0' = some 0 := by decide
    rw [List.mapM_cons, hzero, hvalues]
    rfl
  · rw [List.foldl_cons]
    exact hn

theorem Denotes.zeros_append {ds : List Char} {n : Nat} (hds : Denotes ds n) (k : Nat) :
    Denotes (List.replicate k '0' ++ ds) n := by
  induction k with
  | zero => exact hds
  | succ k ih => exact ih.zero_cons

theorem denotes_toDigits (n : Nat) : Denotes (Nat.toDigits 16 n) n := by
  induction n using Nat.strongRecOn with
  | ind n ih =>
    by_cases h : n < 16
    · rw [Nat.toDigits_of_lt_base h]
      exact denotes_digit h
    · rw [Nat.toDigits_of_base_le (by decide) (Nat.le_of_not_lt h)]
      have hlast := (ih (n / 16) (by omega)).append_digit (Nat.mod_lt n (by decide : 16 > 0))
      rwa [Nat.div_add_mod] at hlast

theorem readDigits?_of_denotes {ds : List Char} {u : Uuid} (h : Denotes ds u.bits.toNat) :
    readDigits? ds = some u := by
  obtain ⟨values, hvalues, hn⟩ := h
  rw [readDigits?, hvalues, Option.map_some, hn, BitVec.ofNat_toNat, BitVec.setWidth_eq]

theorem ungroup?_group (groups : List Nat) {ds : List Char} (h : groups.sum ≤ ds.length) :
    ungroup? groups (group groups ds) = some ds := by
  induction groups generalizing ds with
  | nil => rfl
  | cons n groups ih =>
    rw [List.sum_cons] at h
    have htake : (ds.take n).length = n := List.length_take_of_le (by omega)
    have hrest : groups.sum ≤ (ds.drop n).length := by
      rw [List.length_drop]
      omega
    rw [group, ungroup?, List.drop_left' htake, List.take_left' htake]
    change (ungroup? groups (group groups (ds.drop n))).map (ds.take n ++ ·) = some ds
    rw [ih hrest, Option.map_some, List.take_append_drop]

theorem length_group (groups : List Nat) (ds : List Char) :
    (group groups ds).length = ds.length + groups.length := by
  induction groups generalizing ds with
  | nil => rfl
  | cons n groups ih =>
    rw [group, List.length_append, List.length_cons, ih, List.length_take, List.length_drop,
      List.length_cons]
    omega

theorem read?_chars (u : Uuid) : read? u.chars = some u := by
  unfold chars
  have hdigits : (Nat.toDigits 16 u.bits.toNat).length ≤ 32 :=
    (Nat.length_toDigits_le_iff (by decide) (by decide)).2 u.bits.isLt
  have hvalue : Denotes ((Nat.toDigits 16 u.bits.toNat).leftpad 32 '0') u.bits.toNat :=
    (denotes_toDigits u.bits.toNat).zeros_append (32 - (Nat.toDigits 16 u.bits.toNat).length)
  have hlength : ((Nat.toDigits 16 u.bits.toNat).leftpad 32 '0').length = 32 := by
    rw [List.length_leftpad]
    exact Nat.max_eq_left hdigits
  generalize (Nat.toDigits 16 u.bits.toNat).leftpad 32 '0' = ds at hvalue hlength ⊢
  have hgrouped : (group [8, 4, 4, 4] ds).length = 36 := by
    rw [length_group, hlength]
    rfl
  have hroom : [8, 4, 4, 4].sum ≤ ds.length := by
    rw [hlength]
    decide
  rw [read?, if_neg (by omega), if_pos hgrouped, ungroup?_group _ hroom, Option.bind_some,
    readDigits?_of_denotes hvalue]

end ResourceQuery.Uuid
