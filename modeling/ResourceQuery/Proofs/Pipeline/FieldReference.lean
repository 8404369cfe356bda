import ResourceQuery.Pipeline.Path
import ResourceQuery.Proofs.Except
import ResourceQuery.Proofs.Text.Numeral

/-!
How field references are read. Whatever a reference is made of, its parts hold no dots, so that the
dots of its name stand between its segments and nowhere else. Splitting texts that are joined with
dots is splitting each of them. A segment leads to what is held under its own text, unless this text
is another spelling of an integer.
-/

set_option autoImplicit false

namespace ResourceQuery

theorem not_mem_of_mem_splitOn {α : Type} [BEq α] [LawfulBEq α] {x : α} {xs part : List α}
    (h : part ∈ xs.splitOn x) : x ∉ part := by
  induction xs generalizing part with
  | nil =>
    rw [List.splitOn_nil, List.mem_singleton] at h
    exact h ▸ List.not_mem_nil
  | cons y xs ih =>
    rw [List.splitOn_cons_eq_if_modifyHead] at h
    obtain ⟨head, tail, hsplit⟩ := List.exists_cons_of_ne_nil (@List.splitOn_ne_nil _ _ x xs)
    rw [hsplit] at h ih
    split at h
    · obtain rfl | h := List.mem_cons.1 h
      · exact List.not_mem_nil
      · exact ih h
    · next hne =>
      rw [List.modifyHead_cons, List.mem_cons] at h
      obtain rfl | h := h
      · rw [List.mem_cons, not_or]
        exact ⟨fun heq ↦ hne (beq_iff_eq.2 heq.symm), ih List.mem_cons_self⟩
      · exact ih (List.mem_cons_of_mem _ h)

theorem Text.dot_not_mem_int64Digits (n : Int64) : '.' ∉ int64Digits n := by
  intro h
  rw [int64Digits, signedDigits_eq, List.mem_append] at h
  obtain h | h := h
  · split at h
    · exact absurd (List.mem_singleton.1 h) (by decide)
    · cases h
  · exact absurd (allDigits_digits _ _ h) (by decide)

namespace Segment

theorem key_ofText {text : String}
    (h : ∀ n, Text.readInt64? text.toList = some n → text.toList = Text.int64Digits n) :
    (ofText text).key = text := by
  unfold ofText
  split
  · next n hn => rw [key, ← h n hn, String.ofList_toList]
  · rfl

theorem dot_not_mem_key_ofText {text : String} (h : '.' ∉ text.toList) :
    '.' ∉ (ofText text).key.toList := by
  unfold ofText
  split
  · next n _ =>
    rw [key, String.toList_ofList]
    exact Text.dot_not_mem_int64Digits n
  · exact h

end Segment

namespace Path

/-- What stands between the dots of a text. -/
def pieces (text : String) : List String :=
  (text.toList.splitOn '.').map String.ofList

theorem parts_string (text : String) : parts (.string text) = .ok (pieces text) := by
  rw [parts, pieces]

theorem pieces_of_no_dot {text : String} (h : '.' ∉ text.toList) : pieces text = [text] := by
  rw [pieces, List.splitOn_eq_singleton h, List.map_singleton, String.ofList_toList]

theorem pieces_append_dot (text rest : String) :
    pieces (text ++ "." ++ rest) = pieces text ++ pieces rest := by
  have hlist : (text ++ "." ++ rest).toList = text.toList ++ '.' :: rest.toList := by simp
  rw [pieces, hlist, List.splitOn_append_cons_self, List.map_append, pieces, pieces]

theorem pieces_intercalate {ts : List String} (hne : ts ≠ []) :
    pieces (".".intercalate ts) = ts.flatMap pieces := by
  induction ts with
  | nil => exact absurd rfl hne
  | cons t ts ih =>
    by_cases hts : ts = []
    · rw [hts, String.intercalate_singleton, List.flatMap_singleton]
    · rw [String.intercalate_cons_of_ne_nil hts, pieces_append_dot, ih hts, List.flatMap_cons]

theorem intercalate_pieces (text : String) : ".".intercalate (pieces text) = text := by
  rw [← String.toList_inj, String.toList_intercalate, pieces, List.map_map]
  simp [Function.comp_def, List.intercalate_splitOn]

theorem intercalate_flatMap_pieces (ts : List String) :
    ".".intercalate (ts.flatMap pieces) = ".".intercalate ts := by
  by_cases hne : ts = []
  · rw [hne, List.flatMap_nil]
  · rw [← pieces_intercalate hne, intercalate_pieces]

mutual

theorem dot_not_mem_of_parts : ∀ {v : Value} {ps : List String}, parts v = .ok ps →
    ∀ p ∈ ps, '.' ∉ p.toList
  | .string text, ps, h => by
    rw [parts] at h
    cases h
    intro p hp
    obtain ⟨part, hpart, rfl⟩ := List.mem_map.1 hp
    rw [String.toList_ofList]
    exact not_mem_of_mem_splitOn hpart
  | .integer n, ps, h => by
    rw [parts] at h
    cases h
    rw [List.forall_mem_singleton, String.toList_ofList]
    exact Text.dot_not_mem_int64Digits n
  | .array items, ps, h => by
    rw [parts] at h
    exact dot_not_mem_of_partsOfList h
  | .null, _, h | .boolean _, _, h | .float _, _, h | .decimal _, _, h | .date _, _, h
  | .dateTime _, _, h | .epoch _, _, h | .uuid _, _, h | .object _, _, h => by
    simp [parts] at h

theorem dot_not_mem_of_partsOfList : ∀ {items : List Value} {ps : List String},
    partsOfList items = .ok ps → ∀ p ∈ ps, '.' ∉ p.toList
  | [], ps, h => by
    rw [partsOfList] at h
    cases h
    exact List.forall_mem_nil _
  | item :: rest, ps, h => by
    rw [partsOfList] at h
    simp only [bind_eq_ok_iff, pure_eq_ok, Except.ok.injEq] at h
    obtain ⟨first, hfirst, more, hmore, rfl⟩ := h
    exact List.forall_mem_append.2
      ⟨dot_not_mem_of_parts hfirst, dot_not_mem_of_partsOfList hmore⟩

end

theorem ofValue_eq_ok_iff {v : Value} {p : Path} :
    ofValue v = .ok p ↔ ∃ ps, parts v = .ok ps ∧ "" ∉ ps ∧ p = ofParts ps := by
  rw [ofValue, bind_eq_ok_iff]
  refine exists_congr fun ps ↦ and_congr_right fun _ ↦ ?_
  by_cases h : "" ∈ ps
  · simp [h, throw, throwThe, MonadExceptOf.throw]
  · simp [h, eq_comm]

/-- A name has a dot exactly if it has more than one part. -/
theorem dot_mem_name_iff {ps : List String} (h : ∀ p ∈ ps, '.' ∉ p.toList) :
    '.' ∈ (ofParts ps).name.toList ↔ 2 ≤ ps.length := by
  rw [ofParts, String.toList_intercalate]
  rcases ps with _ | ⟨p, _ | ⟨q, ps⟩⟩
  · simp
  · simpa using h p List.mem_cons_self
  · simp [List.intercalate_cons_cons]

end Path

end ResourceQuery
