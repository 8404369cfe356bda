import ResourceQuery.Proofs.Expr.Juxtaposition
import ResourceQuery.Proofs.Expr.Rereading
import ResourceQuery.Proofs.Literal

/-!
Strings within a query text. Whatever characters a string has, it is printed as a single word that
neither ends before its place does nor reaches beyond it, and that stands for this string: by
itself and behind the sign of a sort key.
-/

set_option autoImplicit false

namespace ResourceQuery

open Lexeme (EndsWord)
open Printer (IsWord stringChars)

/-- A word with the sign of a direction in front of it. -/
def Direction.signed (direction : Direction) (word : String) : String :=
  String.ofList (direction.sign :: word.toList)

theorem Direction.ofSign?_eq_none_iff {c : Char} : ofSign? c = none ↔ c ∉ ['+', '-'] := by
  unfold ofSign?
  split
  · simp_all
  · split <;> simp_all

theorem Lexeme.ofText_of_isWord {word : String} (h : IsWord word.toList) :
    ofText word = [⟨.word word, 0⟩] := by
  have hnext := next?_append_word h endsWord_nil 0
  rw [List.append_nil, String.ofList_toList] at hnext
  rw [ofText, listFrom_of_next? hnext, listFrom_of_none rfl]

/-- A word behind a sign is the key that the direction goes with. -/
theorem Parser.outcome_arg_signed {word : String} {v : Value} (h : IsWord word.toList)
    (hv : Literal.resolve word = .ok v) (direction : Direction) (stop position : Nat)
    (ls : List Lexeme) :
    outcome (arg stop true (⟨.word (direction.signed word), position⟩ :: ls)) =
      .ok (.sortKey direction v, ls) := by
  have hblank : ∀ c ∈ word.toList.head?, Text.isBlank c = false :=
    fun c hc ↦ (h.chars c (List.mem_of_mem_head? hc)).2
  have hsplit := @splitDirection?_sign direction word.toList hblank
  have hne : word ≠ "" := by
    rintro rfl
    exact h.ne_nil rfl
  rw [String.ofList_toList] at hsplit
  rw [Direction.signed, outcome_arg_sortKey stop position ls true hsplit,
    outcome_sortKey_of_ne _ _ _ _ hne, resolve, hv]
  rfl

/-- The word of a string has no delimiter, no blank and no sign in front. In every place that ends
where a word ends it is read as one word, and it stands for the string, also where a sign is put in
front of it. -/
theorem Value.string_stays_in_place (text : String) :
    ∃ word, (Value.string text).toText = word ∧ IsWord word.toList ∧
      (∀ c ∈ word.toList.head?, c ∉ ['+', '-']) ∧
      Literal.resolve word = .ok (.string text) ∧
      Lexeme.ofText word = [⟨.word word, 0⟩] ∧
      (∀ position rest, EndsWord rest → Lexeme.next? position (word.toList ++ rest) =
        some (⟨.word word, position⟩, position + word.length, rest)) ∧
      ∀ direction : Direction,
        Lexeme.ofText (direction.signed word) = [⟨.word (direction.signed word), 0⟩] ∧
          ∀ stop position ls, Parser.outcome
            (Parser.arg stop true (⟨.word (direction.signed word), position⟩ :: ls)) =
              .ok (.sortKey direction (.string text), ls) := by
  obtain ⟨hword, c, cs, hchars, hsign⟩ := Printer.isWord_stringChars text
  have hresolve := Literal.resolve_stringChars text
  have htext : (Value.string text).toText.toList = stringChars text := String.toList_ofList
  rw [← htext] at hword hchars
  refine ⟨_, rfl, hword, ?_, hresolve, Lexeme.ofText_of_isWord hword, ?_, fun direction ↦ ⟨?_, ?_⟩⟩
  · rw [hchars]
    rintro _ ⟨⟩
    exact Direction.ofSign?_eq_none_iff.1 hsign
  · intro position rest hend
    have hnext := Lexeme.next?_append_word hword hend position
    rwa [String.ofList_toList, String.length_toList] at hnext
  · refine Lexeme.ofText_of_isWord ?_
    rw [Direction.signed, String.toList_ofList]
    exact hword.signed direction
  · exact Parser.outcome_arg_signed hword hresolve direction

/-- A string that looks like a descending sort key with an open parenthesis, within a text. -/
theorem string_stays_in_place_of_sign :
    let word := "%2D5%28a"
    (Value.string "-5(a").toText = word ∧ '%' ∈ word.toList.head? ∧ '%' ∉ ['+', '-'] ∧
      EndsWord ")|b".toList ∧ Lexeme.next? 3 (word.toList ++ ")|b".toList) =
        some (⟨.word word, 3⟩, 3 + word.length, ")|b".toList) := by
  intro word
  obtain ⟨_, hword, -, hhead, -, -, hnext, -⟩ := Value.string_stays_in_place "-5(a"
  have htext : (Value.string "-5(a").toText = word := by
    decide +kernel
  obtain rfl := htext.symm.trans hword
  have hfirst : '%' ∈ word.toList.head? := by
    decide
  have hend : EndsWord ")|b".toList := by
    rintro _ ⟨⟩
    rfl
  exact ⟨htext, hfirst, hhead '%' hfirst, hend, hnext 3 _ hend⟩

end ResourceQuery
