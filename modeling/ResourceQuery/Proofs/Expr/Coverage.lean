import Mathlib.Logic.Function.Iterate
import ResourceQuery.Proofs.Expr.Placement

/-!
Lexemes cover their text. A cursor that is put at the start of a text reads its lexemes one after
the other and comes to the end of the text. Each lexeme stands where its characters do, and a
character that belongs to none of them is blank, so that nothing of the text is lost but the blanks
around its words.
-/

set_option autoImplicit false

namespace ResourceQuery

namespace Text

theorem last_trimRight (cs : List Char) : ∀ c ∈ (trimRight cs).getLast?, isBlank c = false := by
  induction cs with
  | nil => simp [trimRight]
  | cons c cs ih =>
    rw [trimRight]
    split
    · split
      · simp
      · next hc =>
        rintro _ ⟨⟩
        exact Bool.eq_false_iff.2 hc
    · next kept hkept =>
      rw [List.getLast?_cons_of_ne_nil hkept]
      exact ih

end Text

namespace Token

/-- Characters that a word is made of: there is no delimiter among them and no blank at their ends.
-/
structure IsTrimmed (raw : List Char) : Prop where
  ne_nil : raw ≠ []
  not_delimiter : ∀ c ∈ raw, isDelimiter c = false
  head : ∀ c ∈ raw.head?, Text.isBlank c = false
  last : ∀ c ∈ raw.getLast?, Text.isBlank c = false

/-- A text starts with the characters of a token: with a delimiter or with a word. -/
inductive Starts : Token → List Char → Prop
  | delimiter {token : Token} {c : Char} (rest : List Char) :
      ofDelimiter? c = some token → Starts token (c :: rest)
  | word {raw : List Char} (rest : List Char) :
      IsTrimmed raw → Starts (.word (String.ofList raw)) (raw ++ rest)

def IsWord (token : Token) : Prop :=
  ∃ raw, token = .word raw

section Spelling

variable {token : Token} {cs rest : List Char}

theorem Spelled.starts (h : token.Spelled cs rest) : token.Starts (cs ++ rest) := by
  cases h with
  | delimiter hc => exact .delimiter rest hc
  | @word c tail rest hblank hrun =>
    obtain ⟨blanks, hsplit, -⟩ := Text.trimRight_append_blanks (c :: tail)
    have htrimmed : IsTrimmed (Text.trimRight (c :: tail)) := by
      refine ⟨?_, fun d hd ↦ ?_, ?_, Text.last_trimRight _⟩
      · rw [Text.trimRight_cons_of_not_blank hblank]
        exact List.cons_ne_nil _ _
      · have hmem : d ∈ Lexeme.run (c :: tail ++ rest) := by
          rw [hrun, hsplit]
          exact List.mem_append_left blanks hd
        exact isDelimiter_of_mem_run hmem
      · rw [Text.trimRight_cons_of_not_blank hblank]
        rintro _ ⟨⟩
        exact hblank
    have hstarts := Starts.word (blanks ++ rest) htrimmed
    rwa [← List.append_assoc, ← hsplit] at hstarts

end Spelling

end Token

namespace Lexeme

/-- The position is that of a character of the lexeme. -/
def Spans (lexeme : Lexeme) (position : Nat) : Prop :=
  lexeme.position ≤ position ∧ position < lexeme.position + lexeme.token.text.length

/-- The lexemes are all that is in a text, apart from blanks. Behind them comes its end. -/
structure Cover (text : List Char) (ls : List Lexeme) : Prop where
  increasing : (ls.map Lexeme.position ++ [text.length]).Pairwise (· < ·)
  starts : ∀ lexeme ∈ ls, lexeme.token.Starts (text.drop lexeme.position)
  separate : ls.IsChain fun first second ↦ ¬ (first.token.IsWord ∧ second.token.IsWord)
  blank : ∀ position c, text[position]? = some c → (∀ lexeme ∈ ls, ¬ lexeme.Spans position) →
    Text.isBlank c = true

section Placement

variable {position : Nat} {text : List Char} {ls : List Lexeme}

theorem Placed.position_bounds (h : Placed position text ls) :
    ∀ lexeme ∈ ls, position ≤ lexeme.position ∧ lexeme.position < position + text.length := by
  intro lexeme hlexeme
  obtain ⟨before, behind, rfl⟩ := List.append_of_mem hlexeme
  obtain ⟨front, cs, rest, rfl, hposition, -, hspelled, -⟩ := h.split
  have hpos := List.length_pos_iff.2 hspelled.ne_nil
  simp only [List.length_append]
  omega

theorem Placed.pairwise (h : Placed position text ls) :
    ls.Pairwise fun first second ↦ first.position < second.position := by
  induction h with
  | nil => exact .nil
  | cons _ hspelled hrest ih =>
    refine .cons (fun lexeme hlexeme ↦ ?_) ih
    have hpos := List.length_pos_iff.2 hspelled.ne_nil
    have hle := (hrest.position_bounds lexeme hlexeme).1
    dsimp only
    omega

theorem Placed.starts (h : Placed 0 text ls) :
    ∀ lexeme ∈ ls, lexeme.token.Starts (text.drop lexeme.position) := by
  intro lexeme hlexeme
  obtain ⟨before, behind, rfl⟩ := List.append_of_mem hlexeme
  obtain ⟨front, cs, rest, rfl, hposition, -, hspelled, -⟩ := h.split
  rw [hposition, Nat.zero_add, List.drop_left]
  exact hspelled.starts

/-- Where a word comes first in a text, the text does not start with a delimiter. -/
theorem Placed.head_not_delimiter {raw : String} {p : Nat}
    (h : Placed position text (⟨.word raw, p⟩ :: ls)) :
    ∃ c tail, text = c :: tail ∧ Token.isDelimiter c = false := by
  cases h with
  | @cons _ blanks cs rest _ _ hblanks hspelled _ =>
    rcases blanks with _ | ⟨blank, blanks⟩
    · obtain ⟨c, tail, rfl, -, hrun, -⟩ := hspelled.exists_of_word
      have hmem : c ∈ run (c :: tail ++ rest) := by
        rw [hrun]
        exact List.mem_cons_self
      exact ⟨c, _, rfl, Token.isDelimiter_of_mem_run hmem⟩
    · refine ⟨blank, _, rfl, Bool.eq_false_iff.2 fun hdelimiter ↦ ?_⟩
      have hblank := hblanks blank List.mem_cons_self
      rw [Token.not_isBlank_of_isDelimiter hdelimiter] at hblank
      cases hblank

/-- Between two words there is the delimiter that ends the first of them. -/
theorem Placed.separate (h : Placed position text ls) :
    ls.IsChain fun first second ↦ ¬ (first.token.IsWord ∧ second.token.IsWord) := by
  induction h with
  | nil => exact .nil
  | @cons position blanks cs rest token ls _ hspelled hrest ih =>
    refine List.isChain_cons.2 ⟨?_, ih⟩
    rintro ⟨second, p⟩ hsecond ⟨⟨raw, hraw⟩, ⟨other, hother⟩⟩
    obtain ⟨ls, rfl⟩ := List.head?_eq_some_iff.1 hsecond
    obtain rfl : token = .word raw := hraw
    obtain rfl : second = .word other := hother
    obtain ⟨c, tail, rfl, hc⟩ := hrest.head_not_delimiter
    rw [hspelled.isDelimiter_of_word] at hc
    cases hc

/-- A character that no lexeme stands on is blank. -/
theorem Placed.isBlank_of_not_spans (h : Placed position text ls) {i : Nat} {c : Char}
    (hc : text[i]? = some c) (hspans : ∀ lexeme ∈ ls, ¬ lexeme.Spans (position + i)) :
    Text.isBlank c = true := by
  induction h generalizing i with
  | nil hblanks => exact hblanks c (List.mem_of_getElem? hc)
  | @cons position blanks cs rest token ls hblanks hspelled hrest ih =>
    rw [List.forall_mem_cons] at hspans
    obtain ⟨hfirst, hmore⟩ := hspans
    obtain ⟨behind, hcs, hbehind⟩ := hspelled.text_append_blanks
    by_cases hbefore : i < blanks.length
    · rw [List.getElem?_append_left hbefore] at hc
      exact hblanks c (List.mem_of_getElem? hc)
    · rw [List.getElem?_append_right (Nat.le_of_not_lt hbefore)] at hc
      by_cases hwithin : i - blanks.length < cs.length
      · rw [List.getElem?_append_left hwithin, hcs] at hc
        have hlength : token.text.toList.length ≤ i - blanks.length := by
          rw [String.length_toList]
          by_contra hlt
          exact hfirst ⟨by dsimp only; omega, by dsimp only; omega⟩
        rw [List.getElem?_append_right hlength] at hc
        exact hbehind c (List.mem_of_getElem? hc)
      · rw [List.getElem?_append_right (Nat.le_of_not_lt hwithin)] at hc
        have hposition :
            position + blanks.length + cs.length + (i - blanks.length - cs.length) =
              position + i := by
          omega
        refine ih hc ?_
        rwa [hposition]

theorem Placed.cover (h : Placed 0 text ls) : Cover text ls where
  increasing := by
    refine List.pairwise_append.2 ⟨List.pairwise_map.2 h.pairwise, List.pairwise_singleton _ _, ?_⟩
    intro position hposition stop hstop
    obtain ⟨lexeme, hlexeme, rfl⟩ := List.mem_map.1 hposition
    rw [List.mem_singleton.1 hstop, ← Nat.zero_add text.length]
    exact (h.position_bounds lexeme hlexeme).2
  starts := h.starts
  separate := h.separate
  blank := by
    intro position c hc hspans
    rw [← Nat.zero_add position] at hspans
    exact h.isBlank_of_not_spans hc hspans

/-- There are no more lexemes than characters. -/
theorem Placed.length_le (h : Placed position text ls) : ls.length ≤ text.length := by
  induction h with
  | nil => exact Nat.zero_le _
  | cons _ hspelled _ ih =>
    have hpos := List.length_pos_iff.2 hspelled.ne_nil
    simp only [List.length_cons, List.length_append]
    omega

end Placement

end Lexeme

namespace Cursor

/-- The lexemes that are left to read. -/
def remaining (cursor : Cursor) : List Lexeme :=
  Lexeme.listFrom cursor.position (cursor.text.toList.drop cursor.position)

/-- The cursor behind a number of reads. -/
def after (cursor : Cursor) (count : Nat) : Cursor :=
  (fun c : Cursor ↦ c.next.2)^[count] cursor

theorem after_succ (cursor : Cursor) (count : Nat) :
    cursor.after (count + 1) = (cursor.after count).next.2 :=
  Function.iterate_succ_apply' _ count cursor

section Step

variable (cursor : Cursor)

theorem text_next : cursor.next.2.text = cursor.text := by
  unfold next
  split <;> rfl

/-- A read takes the first of the lexemes that are left. -/
theorem next_fst : cursor.next.1 = cursor.remaining.head? := by
  unfold next remaining
  split
  · next hnext =>
    rw [Lexeme.listFrom_of_next? hnext]
    rfl
  · next hnext =>
    rw [Lexeme.listFrom_of_none hnext]
    rfl

/-- What is behind the lexeme that was read starts at the position of the cursor. -/
theorem remaining_next : cursor.next.2.remaining = cursor.remaining.tail := by
  unfold next
  split
  · next lexeme behind rest hnext =>
    obtain ⟨blanks, cs, htext, -, -, hposition, rfl⟩ := Lexeme.exists_of_next? hnext
    have hdrop : cursor.text.toList.drop (lexeme.position + cs.length) = rest := by
      have hsplit := congrArg (List.drop (blanks.length + cs.length)) htext
      rw [List.drop_drop, ← List.append_assoc, ← List.length_append, List.drop_left] at hsplit
      rw [hposition, Nat.add_assoc, ← List.length_append]
      exact hsplit
    rw [remaining, remaining, Lexeme.listFrom_of_next? hnext, List.tail_cons, hdrop]
  · next hnext =>
    have hdrop : cursor.text.toList.drop (max cursor.position cursor.text.length) = [] := by
      rw [List.drop_eq_nil_iff, String.length_toList]
      exact Nat.le_max_right _ _
    rw [remaining, remaining, Lexeme.listFrom_of_none hnext, hdrop]
    exact Lexeme.listFrom_of_none rfl

/-- A cursor does not leave its text, and where it reads no lexeme it comes to the end. -/
theorem position_next (h : cursor.position ≤ cursor.text.length) :
    cursor.next.2.position ≤ cursor.text.length ∧
      (cursor.next.1 = none → cursor.next.2.position = cursor.text.length) := by
  unfold next
  split
  · next lexeme behind rest hnext =>
    obtain ⟨blanks, cs, htext, -, -, hposition, rfl⟩ := Lexeme.exists_of_next? hnext
    have hlength := congrArg List.length htext
    rw [List.length_drop, String.length_toList] at hlength
    simp only [List.length_append] at hlength
    refine ⟨?_, fun hnone ↦ nomatch hnone⟩
    dsimp only
    omega
  · exact ⟨Nat.max_le.2 ⟨h, Nat.le_refl _⟩, fun _ ↦ Nat.max_eq_right h⟩

end Step

section Run

variable (cursor : Cursor) (count : Nat)

theorem text_after : (cursor.after count).text = cursor.text := by
  induction count with
  | zero => rfl
  | succ count ih => rw [after_succ, text_next, ih]

theorem remaining_after : (cursor.after count).remaining = cursor.remaining.drop count := by
  induction count with
  | zero => rfl
  | succ count ih => rw [after_succ, remaining_next, ih, List.tail_drop]

theorem next_after : (cursor.after count).next.1 = cursor.remaining[count]? := by
  rw [next_fst, remaining_after, List.head?_drop]

theorem position_after_le (h : cursor.position ≤ cursor.text.length) :
    (cursor.after count).position ≤ cursor.text.length := by
  induction count with
  | zero => exact h
  | succ count ih =>
    rw [← text_after cursor count] at ih ⊢
    rw [after_succ]
    exact (position_next _ ih).1

/-- The read that finds no lexeme leaves the cursor at the end of the text. -/
theorem position_after (h : cursor.position ≤ cursor.text.length)
    (hcount : cursor.remaining.length ≤ count) :
    (cursor.after (count + 1)).position = cursor.text.length := by
  have hle := position_after_le cursor count h
  have hnone := next_after cursor count
  rw [List.getElem?_eq_none hcount] at hnone
  rw [← text_after cursor count] at hle ⊢
  rw [after_succ]
  exact (position_next _ hle).2 hnone

end Run

/-- A cursor that is put at the start of a text reads the lexemes that cover the text, no more of
them than there are characters, and all further reads find none and leave it at the end. -/
theorem reads_cover (text : String) :
    Lexeme.Cover text.toList (Lexeme.ofText text) ∧
      (Lexeme.ofText text).length ≤ text.length ∧
      ∀ count, ((Cursor.mk text 0).after count).next.1 = (Lexeme.ofText text)[count]? ∧
        ((Cursor.mk text 0).after ((Lexeme.ofText text).length + count + 1)).position =
          text.length := by
  have hplaced := Lexeme.placed_listFrom 0 text.toList
  refine ⟨hplaced.cover, ?_, fun count ↦ ⟨next_after _ count, ?_⟩⟩
  · rw [← String.length_toList]
    exact hplaced.length_le
  · exact position_after (Cursor.mk text 0) _ (Nat.zero_le _) (Nat.le_add_right _ count)

end Cursor

end ResourceQuery
