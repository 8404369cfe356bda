import Mathlib
import ResourceQuery.Proofs.Expr.Juxtaposition

/-!
Query texts in parentheses. Such a text is a clause that stands for the tree of the text, and it
does so wherever it is put: the tokens between the parentheses are those of the text alone, and what
follows the parentheses is no equals sign, so that they are no tuple of names. Texts in parentheses
that are joined by one separator have the trees of the texts as their clauses.
-/

set_option autoImplicit false

namespace ResourceQuery

open ResourceQuery.Parser (Joint)

namespace Lexeme

theorem Lexes.parens {cs : List Char} {ts : List Token} (h : Lexes cs ts) :
    Lexes ('(' :: (cs ++ [')'])) (.leftParen :: (ts ++ [.rightParen])) :=
  (h.append_delimiter rfl lexes_nil).delimiter rfl

theorem Lexes.intercalate {d : Char} {token : Token} (hd : Token.ofDelimiter? d = some token)
    {parts : List (List Char)} {tokens : List (List Token)}
    (h : List.Forall₂ Lexes parts tokens) :
    Lexes ([d].intercalate parts) ([token].intercalate tokens) :=
  intercalate_of_append lexes_nil (fun hcs hds ↦ hcs.append_delimiter hd hds) h

theorem tokens_of_lexes {text : String} {ts : List Token} (h : Lexes text.toList ts) :
    tokens text = ts :=
  h 0

end Lexeme

open Lexeme (Lexes tokens lexes_tokens tokens_of_lexes)

def parenthesized (text : String) : String :=
  "(" ++ text ++ ")"

theorem toList_parenthesized (text : String) :
    (parenthesized text).toList = '(' :: (text.toList ++ [')']) := by
  simp [parenthesized]

theorem tokens_parenthesized (text : String) :
    tokens (parenthesized text) = .leftParen :: (tokens text ++ [.rightParen]) := by
  refine tokens_of_lexes ?_
  rw [toList_parenthesized]
  exact (lexes_tokens text).parens

theorem tokens_intercalate {separator : String} {d : Char} {token : Token}
    (hseparator : separator.toList = [d]) (hd : Token.ofDelimiter? d = some token)
    (texts : List String) :
    tokens (separator.intercalate texts) = [token].intercalate (texts.map tokens) := by
  refine tokens_of_lexes ?_
  rw [String.toList_intercalate, hseparator]
  refine Lexes.intercalate hd ?_
  rw [List.forall₂_map_left_iff, List.forall₂_map_right_iff, List.forall₂_same]
  exact fun text _ ↦ lexes_tokens text

namespace Grammar

theorem Derives.query_of_clause {c : Call} {ts : List Token} (h : Derives (.clause c) ts) :
    Derives (.query c) ts :=
  derives_query_iff.2 ⟨[c], clauses_singleton_iff.2 h, rfl⟩

/-- A query in parentheses is a clause that stands for the same tree. -/
theorem Derives.parens {c : Call} {ts : List Token} (h : Derives (.query c) ts) :
    Derives (.clause c) (.leftParen :: (ts ++ [.rightParen])) := by
  cases h with
  | query hfirst hmore hjoins => exact .clauseGroup (.group hfirst hmore hjoins)

/-- Clauses with a separator between them: the first one, and the tail of a list of clauses. -/
theorem exists_tail_of_intercalate {joint : Joint} {separator : Token}
    (hseparator : Separates joint separator) {c : Call} {cs : List Call}
    {parts : List (List Token)}
    (h : List.Forall₂ (fun c ts ↦ Derives (.clause c) ts) (c :: cs) parts) :
    ∃ ts us, Derives (.clause c) ts ∧ Derives (.tail joint cs) us ∧
      [separator].intercalate parts = ts ++ us := by
  induction cs generalizing c parts with
  | nil =>
    obtain ⟨ts, _, hfirst, hnil, rfl⟩ := List.forall₂_cons_left_iff.1 h
    obtain rfl := List.forall₂_nil_left_iff.1 hnil
    exact ⟨ts, [], hfirst, .tailNil, by rw [List.intercalate_singleton, List.append_nil]⟩
  | cons d cs ih =>
    obtain ⟨ts, parts, hfirst, hmore, rfl⟩ := List.forall₂_cons_left_iff.1 h
    obtain ⟨us, vs, hnext, htail, hsplit⟩ := ih hmore
    obtain ⟨part, parts, -, -, rfl⟩ := List.forall₂_cons_left_iff.1 hmore
    refine ⟨ts, separator :: (us ++ vs), hfirst, .tailCons hseparator hnext htail, ?_⟩
    rw [List.intercalate_cons_cons, hsplit, List.append_assoc]
    rfl

theorem derives_query_of_intercalate {separator : Token}
    (hseparator : Separates .conjunction separator) {c : Call} {cs : List Call}
    {parts : List (List Token)}
    (h : List.Forall₂ (fun c ts ↦ Derives (.clause c) ts) (c :: cs) parts) :
    Derives (.query (Call.conjunction (c :: cs))) ([separator].intercalate parts) := by
  obtain ⟨ts, us, hfirst, htail, hsplit⟩ := exists_tail_of_intercalate hseparator h
  rw [hsplit]
  exact .query hfirst htail (joins_iff.2 rfl)

theorem derives_group_of_intercalate {joint : Joint} {separator : Token}
    (hseparator : Separates joint separator) {c : Call} {cs : List Call}
    {parts : List (List Token)}
    (h : List.Forall₂ (fun c ts ↦ Derives (.clause c) ts) (c :: cs) parts) :
    Derives (.clause (joint.join (c :: cs)))
      (.leftParen :: ([separator].intercalate parts ++ [.rightParen])) := by
  obtain ⟨ts, us, hfirst, htail, hsplit⟩ := exists_tail_of_intercalate hseparator h
  rw [hsplit]
  exact .clauseGroup (.group hfirst htail (joins_iff.2 rfl))

theorem parse_iff_derives_query {text : String} {tree : Call} :
    parse text = .ok tree ↔ Derives (.query tree) (tokens text) :=
  parse_eq_ok_iff_clauses.trans derives_query_iff.symm

/-- Each text in parentheses is a clause. -/
theorem forall₂_parenthesized {texts : List String} {trees : List Call}
    (h : List.Forall₂ (fun text tree ↦ parse text = .ok tree) texts trees) :
    List.Forall₂ (fun c ts ↦ Derives (.clause c) ts) trees
      ((texts.map parenthesized).map tokens) := by
  rw [List.map_map, List.forall₂_map_right_iff]
  refine h.flip.imp fun tree text hparse ↦ ?_
  rw [Function.comp_apply, tokens_parenthesized]
  exact (parse_iff_derives_query.1 hparse).parens

/-- A query text in parentheses is read as the text alone. Two or more texts in parentheses are read
as the conjunction of what they are read as alone, in their order, if `&` or `,` is between them,
and as the disjunction if `|` is between them and all of them are in parentheses. -/
theorem parse_parenthesized :
    (∀ {text : String} {tree : Call}, parse text = .ok tree →
      parse (parenthesized text) = .ok tree) ∧
    ∀ {texts : List String} {trees : List Call},
      List.Forall₂ (fun text tree ↦ parse text = .ok tree) texts trees → 2 ≤ texts.length →
        (∀ separator ∈ ["&", ","], parse (separator.intercalate (texts.map parenthesized)) =
          .ok ⟨"and", trees.map Call.toArg⟩) ∧
        parse (parenthesized ("|".intercalate (texts.map parenthesized))) =
          .ok ⟨"or", trees.map Call.toArg⟩ := by
  have hquery {text : String} {tree : Call} (h : Derives (.clause tree) (tokens text)) :
      parse text = .ok tree :=
    parse_iff_derives_query.2 h.query_of_clause
  refine ⟨fun {text tree} h ↦ hquery ?_, fun {texts trees} h hlength ↦ ?_⟩
  · rw [tokens_parenthesized]
    exact (parse_iff_derives_query.1 h).parens
  · have hclauses := forall₂_parenthesized h
    obtain ⟨c, d, cs, rfl⟩ : ∃ c d cs, trees = c :: d :: cs := by
      rw [h.length_eq] at hlength
      match trees, hlength with
      | c :: d :: cs, _ => exact ⟨c, d, cs, rfl⟩
    have hconjunction {separator : String} {e : Char} {token : Token}
        (hseparator : separator.toList = [e]) (he : Token.ofDelimiter? e = some token)
        (htoken : Separates .conjunction token) :
        parse (separator.intercalate (texts.map parenthesized)) =
          .ok ⟨"and", (c :: d :: cs).map Call.toArg⟩ := by
      rw [parse_iff_derives_query, tokens_intercalate hseparator he]
      exact derives_query_of_intercalate htoken hclauses
    refine ⟨?_, hquery ?_⟩
    · rw [List.forall_mem_cons, List.forall_mem_singleton]
      exact ⟨hconjunction rfl rfl .ampersand, hconjunction rfl rfl .comma⟩
    · rw [tokens_parenthesized, @tokens_intercalate "|" '|' _ rfl rfl]
      exact derives_group_of_intercalate .pipe hclauses

/-- Clauses without parentheses and a tuple of names, joined by `|`. -/
theorem parse_parenthesized_of_tuple :
    parse "a=1&b=2" = .ok ⟨"and", [.call "eq" [.value (.string "a"), .value (.integer 1)],
      .call "eq" [.value (.string "b"), .value (.integer 2)]]⟩ ∧
    parse "(c,d)=in=(3)" = .ok ⟨"in", [.value (.array [.string "c", .string "d"]),
      .value (.array [.integer 3])]⟩ ∧
    parse "((a=1&b=2)|((c,d)=in=(3)))" = .ok ⟨"or", [
      .call "and" [.call "eq" [.value (.string "a"), .value (.integer 1)],
        .call "eq" [.value (.string "b"), .value (.integer 2)]],
      .call "in" [.value (.array [.string "c", .string "d"]),
        .value (.array [.integer 3])]]⟩ := by
  have hgroup : parse "a=1&b=2" = .ok ⟨"and", [.call "eq" [.value (.string "a"),
    .value (.integer 1)], .call "eq" [.value (.string "b"), .value (.integer 2)]]⟩ := by cbv
  have htuple : parse "(c,d)=in=(3)" = .ok ⟨"in", [.value (.array [.string "c", .string "d"]),
    .value (.array [.integer 3])]⟩ := by cbv
  exact ⟨hgroup, htuple, (parse_parenthesized.2 (.cons hgroup (.cons htuple .nil)) (by decide)).2⟩

end Grammar

end ResourceQuery
