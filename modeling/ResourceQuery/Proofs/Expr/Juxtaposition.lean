import ResourceQuery.Proofs.Expr.Acceptance
import ResourceQuery.Proofs.Expr.Printing

/-!
Texts joined by a delimiter. A word ends at a delimiter and a blank before it belongs to no token,
so that the tokens of the whole are those of the parts with the delimiter between them. At the top
of a text the grammar joins clauses, so that two query texts joined by `&` have the clauses of the
first and then those of the second.
-/

set_option autoImplicit false

namespace ResourceQuery

namespace Lexeme

theorem next?_eq_none_iff {position : Nat} {cs : List Char} :
    next? position cs = none ↔ Text.allBlank cs = true := by
  induction cs generalizing position with
  | nil => simp [next?, Text.allBlank]
  | cons c cs ih =>
    rw [next?, Text.allBlank, List.all_cons]
    cases Text.isBlank c with
    | true => exact ih
    | false =>
      simp only [Bool.false_eq_true, if_false, Bool.false_and, iff_false]
      split <;> simp

theorem run_append_delimiter {d : Char} (hd : Token.isDelimiter d = true) (cs rest : List Char) :
    run (cs ++ d :: rest) = run cs := by
  induction cs with
  | nil => simp [run, hd]
  | cons c cs ih =>
    simp only [run, List.cons_append, List.takeWhile_cons] at ih ⊢
    rw [ih]

theorem next?_append_delimiter {d : Char} (hd : Token.isDelimiter d = true)
    {position behind : Nat} {cs left : List Char} {lexeme : Lexeme}
    (h : next? position cs = some (lexeme, behind, left)) (rest : List Char) :
    next? position (cs ++ d :: rest) = some (lexeme, behind, left ++ d :: rest) := by
  induction cs generalizing position with
  | nil => cases h
  | cons c cs ih =>
    rw [next?] at h
    rw [List.cons_append, next?]
    cases hblank : Text.isBlank c with
    | true =>
      rw [hblank] at h
      exact ih h
    | false =>
      rw [hblank, if_neg (by decide)] at h
      rw [if_neg (by decide)]
      cases htoken : Token.ofDelimiter? c with
      | some token =>
        rw [htoken] at h
        cases h
        rfl
      | none =>
        rw [htoken] at h
        cases h
        have hlength : (run (c :: cs)).length ≤ (c :: cs).length :=
          (List.takeWhile_prefix _).length_le
        dsimp only
        rw [← List.cons_append, run_append_delimiter hd, List.drop_append_of_le_length hlength]

theorem next?_append_of_none {position : Nat} {cs : List Char} (h : next? position cs = none)
    (rest : List Char) : next? position (cs ++ rest) = next? (position + cs.length) rest := by
  induction cs generalizing position with
  | nil => rfl
  | cons c cs ih =>
    rw [next?_eq_none_iff, Text.allBlank, List.all_cons, Bool.and_eq_true] at h
    rw [List.cons_append, next?, if_pos h.1, ih (next?_eq_none_iff.2 h.2), List.length_cons,
      Nat.add_right_comm, Nat.add_assoc]

theorem listFrom_of_none {position : Nat} {cs : List Char} (h : next? position cs = none) :
    listFrom position cs = [] := by
  rw [listFrom]
  split
  · rfl
  · next hsome =>
    rw [h] at hsome
    cases hsome

theorem listFrom_congr {position other : Nat} {cs ds : List Char}
    (h : next? position cs = next? other ds) : listFrom position cs = listFrom other ds := by
  cases hds : next? other ds with
  | none => rw [listFrom_of_none (h.trans hds), listFrom_of_none hds]
  | some found => rw [listFrom_of_next? (h.trans hds), listFrom_of_next? hds]

theorem ofText_of_blank {text : String} (h : Text.allBlank text.toList = true) :
    ofText text = [] :=
  listFrom_of_none (next?_eq_none_iff.2 h)

/-- Where a text starts matters to the positions of its lexemes only. -/
theorem next?_shift {position behind : Nat} {cs rest : List Char} {lexeme : Lexeme}
    (h : next? position cs = some (lexeme, behind, rest)) (other : Nat) :
    ∃ p q, next? other cs = some (⟨lexeme.token, p⟩, q, rest) := by
  induction cs generalizing position other with
  | nil => cases h
  | cons c cs ih =>
    rw [next?] at h ⊢
    cases hblank : Text.isBlank c with
    | true =>
      rw [hblank] at h
      exact ih h (other + 1)
    | false =>
      rw [hblank, if_neg (by decide)] at h
      rw [if_neg (by decide)]
      cases htoken : Token.ofDelimiter? c with
      | some token =>
        rw [htoken] at h
        cases h
        exact ⟨_, _, rfl⟩
      | none =>
        rw [htoken] at h
        cases h
        exact ⟨_, _, rfl⟩

theorem map_token_listFrom (cs : List Char) (position other : Nat) :
    (listFrom other cs).map Lexeme.token = (listFrom position cs).map Lexeme.token := by
  cases h : next? position cs with
  | none =>
    have hother : next? other cs = none := next?_eq_none_iff.2 (next?_eq_none_iff.1 h)
    rw [listFrom_of_none h, listFrom_of_none hother]
  | some found =>
    obtain ⟨lexeme, behind, rest⟩ := found
    obtain ⟨p, q, hother⟩ := next?_shift h other
    rw [listFrom_of_next? h, listFrom_of_next? hother, List.map_cons, List.map_cons,
      map_token_listFrom rest behind q]
termination_by cs.length
decreasing_by exact length_of_next? h

/-- The tokens of a text. -/
def tokens (text : String) : List Token :=
  (ofText text).map Lexeme.token

theorem lexes_tokens (text : String) : Lexes text.toList (tokens text) :=
  fun position ↦ map_token_listFrom text.toList 0 position

theorem Lexes.append_delimiter {d : Char} {token : Token} (hd : Token.ofDelimiter? d = some token)
    {cs rest : List Char} {ts us : List Token} (hcs : Lexes cs ts) (hrest : Lexes rest us) :
    Lexes (cs ++ d :: rest) (ts ++ token :: us) := by
  intro position
  have hts := hcs position
  cases h : next? position cs with
  | none =>
    rw [listFrom_of_none h] at hts
    obtain rfl := hts
    rw [listFrom_congr (next?_append_of_none h (d :: rest))]
    exact hrest.delimiter hd _
  | some found =>
    obtain ⟨lexeme, behind, left⟩ := found
    have hdelimiter : Token.isDelimiter d = true := by simp [Token.isDelimiter, hd]
    rw [listFrom_of_next? h] at hts
    obtain rfl := hts
    have hleft : Lexes left ((listFrom behind left).map Lexeme.token) := fun other ↦
      map_token_listFrom left behind other
    rw [listFrom_of_next? (next?_append_delimiter hdelimiter h rest), List.map_cons, List.map_cons,
      List.cons_append, hleft.append_delimiter hd hrest behind]
termination_by cs.length
decreasing_by exact length_of_next? h

theorem tokens_append_delimiter {d : Char} {token : Token} (hd : Token.ofDelimiter? d = some token)
    (first second : String) :
    tokens (first ++ String.ofList [d] ++ second) = tokens first ++ token :: tokens second := by
  have h := (lexes_tokens first).append_delimiter hd (lexes_tokens second) 0
  rw [tokens, ofText]
  simpa using h

end Lexeme

namespace Grammar

open Lexeme (tokens)

/-- Clauses that stand at the top of a text, with separators between them. -/
inductive Clauses : List Call → List Token → Prop
  | intro {c : Call} {cs : List Call} {ts us : List Token} :
      Derives (.clause c) ts → Derives (.tail .conjunction cs) us → Clauses (c :: cs) (ts ++ us)

theorem Clauses.ne_nil {cs : List Call} {ts : List Token} (h : Clauses cs ts) : cs ≠ [] := by
  obtain ⟨_, _⟩ := h
  exact List.cons_ne_nil _ _

theorem derives_query_iff {c : Call} {ts : List Token} :
    Derives (.query c) ts ↔ ∃ cs, Clauses cs ts ∧ c = Call.conjunction cs := by
  constructor
  · intro h
    cases h with
    | query hfirst hmore hjoins => exact ⟨_, .intro hfirst hmore, joins_iff.1 hjoins⟩
  · rintro ⟨_, ⟨hfirst, hmore⟩, rfl⟩
    exact .query hfirst hmore (joins_iff.2 rfl)

theorem clauses_singleton_iff {c : Call} {ts : List Token} :
    Clauses [c] ts ↔ Derives (.clause c) ts := by
  constructor
  · rintro ⟨hfirst, hmore⟩
    cases hmore with
    | tailNil => rwa [List.append_nil]
  · intro h
    rw [← ts.append_nil]
    exact .intro h .tailNil

theorem derives_tail_append {joint : Parser.Joint} {cs ds : List Call} {ts us : List Token}
    (h : Derives (.tail joint cs) ts) (h' : Derives (.tail joint ds) us) :
    Derives (.tail joint (cs ++ ds)) (ts ++ us) := by
  induction cs generalizing ts with
  | nil =>
    cases h with
    | tailNil => exact h'
  | cons c cs ih =>
    cases h with
    | tailCons hseparates hfirst hmore =>
      rw [List.cons_append, List.cons_append, List.append_assoc]
      exact .tailCons hseparates hfirst (ih hmore)

theorem Clauses.append {cs ds : List Call} {ts us : List Token} (h : Clauses cs ts)
    (h' : Clauses ds us) : Clauses (cs ++ ds) (ts ++ .ampersand :: us) := by
  obtain ⟨hfirst, hmore⟩ := h
  obtain ⟨hfirst', hmore'⟩ := h'
  rw [List.append_assoc]
  exact .intro hfirst (derives_tail_append hmore (.tailCons .ampersand hfirst' hmore'))

theorem exists_lexemes (ts : List Token) : ∃ ls : List Lexeme, ls.map Lexeme.token = ts :=
  ⟨ts.map (⟨·, 0⟩), by simp [Function.comp_def]⟩

/-- A text that is one clause is not several, and not another one. -/
theorem Clauses.eq_singleton {cs : List Call} {c : Call} {ts : List Token} (h : Clauses cs ts)
    (hc : Derives (.clause c) ts) : cs = [c] := by
  obtain @⟨first, cs, us, vs, hfirst, hmore⟩ := h
  -- A reader that starts at the first clause ends both where this clause and where `c` ends.
  obtain ⟨ls, rfl⟩ := exists_lexemes us
  obtain ⟨ms, rfl⟩ := exists_lexemes vs
  have hnext : next? (ms ++ []) ≠ some .equals :=
    next?_tail_ne_equals hmore rfl (by simp [next?])
  have hread := hfirst.read 0 ls (ms ++ []) rfl hnext
  have hreadAll := hc.read 0 (ls ++ ms) [] (List.map_append ..) (by simp [next?])
  rw [List.append_assoc, hread] at hreadAll
  simp only [List.append_nil, Except.ok.injEq, Prod.mk.injEq] at hreadAll
  obtain ⟨rfl, rfl⟩ := hreadAll
  cases hmore with
  | tailNil => rfl

theorem parse_eq_ok_iff_clauses {text : String} {tree : Call} :
    parse text = .ok tree ↔ ∃ cs, Clauses cs (tokens text) ∧ tree = Call.conjunction cs := by
  rw [← derives_query_iff, tokens, ← @query_eq_ok_iff text.length, parse]
  cases Parser.query text.length (Lexeme.ofText text) <;> simp

theorem not_blank_of_parse {text : String} {tree : Call} (h : parse text = .ok tree) :
    Text.allBlank text.toList = false := by
  rw [Bool.eq_false_iff]
  intro hblank
  rw [parse, Lexeme.ofText_of_blank hblank, Parser.query_nil] at h
  cases h

end Grammar

end ResourceQuery
