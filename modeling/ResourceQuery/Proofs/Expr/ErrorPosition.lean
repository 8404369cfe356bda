import Mathlib
import ResourceQuery.Proofs.Expr.Faults
import ResourceQuery.Proofs.Expr.Placement

/-!
Where an error of a query text points. What the readers find fault with among the lexemes is found
at the same place of the text: the characters there are those that the lexeme is read off, and the
parentheses in front of it and behind it are those of the other lexemes.
-/

set_option autoImplicit false

namespace ResourceQuery

namespace ParseError

open Grammar Lexeme

/-- What is wrong with a text shows where the error points: `front` is the text up to there and
`back` is the text from there on. A parenthesis that is not closed is pointed at itself, or by the
name of the call that it belongs to. -/
def PointsAt (front back : List Char) : Cause → Prop
  | .empty => Text.allBlank front = true ∧ back = []
  | .unexpected _ none => back = []
  | .unexpected _ (some token) => token.text.toList <+: back
  | .unclosed =>
    ∃ opening inside, back = opening ++ '(' :: inside ∧ ¬ Text.Closes inside ∧
      (opening = [] ∨ opening = run back ∧ IsName (trimmedRun back))
  | .strayClose => back.head? = some ')' ∧ Text.Balanced front
  | .invalidName name => name = trimmedRun back ∧ ¬ IsName name
  | .literal e => Literal.resolve (trimmedRun back) = .error e
  | .mixedGroup => ∃ separator ∈ ['&', ',', '|'], back.head? = some separator
  | .bareOr => back.head? = some '|' ∧ Text.Balanced front

/-- A fault is at a position of the text that shows it. -/
def Located (text : List Char) (fault : Parser.Fault) : Prop :=
  ∃ front back, text = front ++ back ∧ fault.position = front.length ∧
    PointsAt front back fault.cause

theorem balanced_of_nested {cs : List Char} {ls : List Lexeme}
    (hparens : Text.parens cs = Token.parens (ls.map Lexeme.token))
    (hnested : Nested (ls.map Lexeme.token)) : Text.Balanced cs := by
  obtain ⟨word, hword⟩ := hnested.exists_dyckWord
  exact ⟨word, hword.trans hparens.symm⟩

theorem not_closes_of_nested {position : Nat} {text : List Char} {ls : List Lexeme}
    (hplaced : Placed position text ls) (hnested : Nested (ls.map Lexeme.token)) :
    ¬ Text.Closes text :=
  (balanced_of_nested hplaced.parens hnested).not_closes

/-- What holds of a text cut in front of a lexeme is to be shown for a fault at the lexeme. -/
theorem located_of_placed {text : List Char} {before behind : List Lexeme} {lexeme : Lexeme}
    {cause : Cause} (hplaced : Placed 0 text (before ++ lexeme :: behind))
    (hpoints : ∀ front cs rest, Text.parens front = Token.parens (before.map Lexeme.token) →
      lexeme.token.Spelled cs rest → Placed (lexeme.position + cs.length) rest behind →
      PointsAt front (cs ++ rest) cause) : Located text ⟨cause, lexeme.position⟩ := by
  obtain ⟨front, cs, rest, rfl, hposition, hparens, hspelled, hrest⟩ := hplaced.split
  rw [Nat.zero_add] at hposition
  exact ⟨front, cs ++ rest, rfl, hposition, hpoints front cs rest hparens hspelled hrest⟩

theorem located_of_unclosed {text : List Char} {before opening inside : List Lexeme} {start : Nat}
    (hplaced : Placed 0 text (before ++ (opening ++ inside))) (hopens : Opens start opening)
    (hinside : Nested (inside.map Lexeme.token)) : Located text ⟨.unclosed, start⟩ := by
  cases hopens with
  | paren =>
    refine located_of_placed hplaced fun front cs rest _ hspelled hrest ↦ ?_
    obtain rfl := hspelled.eq_singleton '(' rfl
    exact ⟨[], rest, rfl, not_closes_of_nested hrest hinside, .inl rfl⟩
  | @call name paren hname =>
    refine located_of_placed hplaced fun front cs rest _ hspelled hrest ↦ ?_
    cases hrest with
    | @cons _ blanks _ rest _ _ hblanks hparen hrest =>
      obtain rfl := hparen.eq_singleton '(' rfl
      -- What follows the name is a delimiter, so that there is no blank in front of it.
      obtain rfl : blanks = [] := by
        rcases blanks with _ | ⟨blank, blanks⟩
        · rfl
        · have hblank := hblanks blank List.mem_cons_self
          rw [hspelled.not_blank_of_word] at hblank
          cases hblank
      refine ⟨cs, rest, rfl, not_closes_of_nested hrest hinside, .inr ⟨?_, ?_⟩⟩
      · obtain ⟨_, _, _, _, hrun, _⟩ := hspelled.exists_of_word
        exact hrun.symm
      · rwa [hspelled.trimmedRun_eq]

theorem located_of_blames {text : List Char} {ls : List Lexeme} {fault : Parser.Fault}
    (hplaced : Placed 0 text ls) (h : Blames text.length ls fault) : Located text fault := by
  cases h with
  | @unexpected before behind expected =>
    rcases behind with _ | ⟨lexeme, behind⟩
    · exact ⟨text, [], (List.append_nil text).symm, rfl, rfl⟩
    · refine located_of_placed hplaced fun front cs rest _ hspelled _ ↦ ?_
      exact hspelled.text_prefix.trans (List.prefix_append cs rest)
  | literal before he =>
    refine located_of_placed hplaced fun front cs rest _ hspelled _ ↦ ?_
    rwa [PointsAt, hspelled.trimmedRun_eq]
  | sortKey before hsigned he =>
    -- The position is that of the key, behind the sign.
    obtain ⟨front, cs, rest, rfl, hposition, _, hspelled, _⟩ := hplaced.split
    obtain ⟨sign, tail, rfl, hkey⟩ := hspelled.trimmedRun_key hsigned
    refine ⟨front ++ [sign], tail ++ rest, by simp, by simpa using hposition, ?_⟩
    rwa [PointsAt, hkey]
  | name before hname =>
    refine located_of_placed hplaced fun front cs rest _ hspelled _ ↦ ?_
    exact ⟨hspelled.trimmedRun_eq.symm, hname⟩
  | @mixedGroup before behind lexeme joint hseparates =>
    refine located_of_placed hplaced fun front cs rest _ hspelled _ ↦ ?_
    generalize lexeme.token = token at hspelled hseparates
    cases hseparates with
    | pipe =>
      obtain rfl := hspelled.eq_singleton '|' rfl
      exact ⟨'|', by decide, rfl⟩
    | ampersand =>
      obtain rfl := hspelled.eq_singleton '&' rfl
      exact ⟨'&', by decide, rfl⟩
    | comma =>
      obtain rfl := hspelled.eq_singleton ',' rfl
      exact ⟨',', by decide, rfl⟩
  | unclosed before hopens hinside => exact located_of_unclosed hplaced hopens hinside

theorem located_of_rejects {text : List Char} {ls : List Lexeme} {fault : Parser.Fault}
    (hplaced : Placed 0 text ls) (h : Rejects text.length ls fault) : Located text fault := by
  cases h with
  | empty =>
    cases hplaced with
    | nil hblanks =>
      exact ⟨text, [], (List.append_nil text).symm, rfl, List.all_eq_true.2 hblanks, rfl⟩
  | within h => exact located_of_blames hplaced h
  | bareOr hbefore =>
    refine located_of_placed hplaced fun front cs rest hparens hspelled _ ↦ ?_
    obtain rfl := hspelled.eq_singleton '|' rfl
    exact ⟨rfl, balanced_of_nested hparens hbefore⟩
  | strayClose hbefore =>
    refine located_of_placed hplaced fun front cs rest hparens hspelled _ ↦ ?_
    obtain rfl := hspelled.eq_singleton ')' rfl
    exact ⟨rfl, balanced_of_nested hparens hbefore⟩

theorem located_of_parse {text : String} {e : ParseError} (h : parse text = .error e) :
    ∃ fault, Located text.toList fault ∧ e = locate text fault.cause fault.position := by
  unfold parse at h
  split at h
  · cases h
  · next fault hfault =>
    cases h
    refine ⟨fault, ?_, rfl⟩
    rw [← String.length_toList] at hfault
    exact located_of_rejects (placed_listFrom 0 text.toList) (rejects_of_query _ _ fault hfault)

/-- Only a text of blanks is called empty. -/
theorem allBlank_of_parse {text : String} {e : ParseError} (h : parse text = .error e)
    (hempty : e.cause = .empty) : Text.allBlank text.toList = true := by
  obtain ⟨fault, ⟨front, back, htext, -, hback⟩, rfl⟩ := located_of_parse h
  have hcause : fault.cause = .empty := hempty
  rw [hcause] at hback
  obtain ⟨hfront, rfl⟩ := hback
  rwa [htext, List.append_nil]

/-- Every error of a query text points at what it complains of, and the text is called empty exactly
if there are only blanks in it. -/
theorem parse_error_points (text : String) :
    (∀ e, parse text = .error e →
      e.position ≤ text.length ∧
        e.fragment = String.ofList ((text.toList.drop e.position).take 24) ∧
        PointsAt (text.toList.take e.position) (text.toList.drop e.position) e.cause) ∧
      ((∃ e, parse text = .error e ∧ e.cause = .empty) ↔ Text.allBlank text.toList = true) := by
  have hpoints (e : ParseError) (h : parse text = .error e) :
      e.position ≤ text.length ∧
        e.fragment = String.ofList ((text.toList.drop e.position).take 24) ∧
        PointsAt (text.toList.take e.position) (text.toList.drop e.position) e.cause := by
    obtain ⟨fault, ⟨front, back, htext, hposition, hback⟩, rfl⟩ := located_of_parse h
    have hle : front.length ≤ text.length := by
      rw [← String.length_toList, htext, List.length_append]
      exact Nat.le_add_right _ _
    refine ⟨hposition ▸ hle, rfl, ?_⟩
    simpa [locate, hposition, htext] using hback
  refine ⟨hpoints, ?_, fun hblank ↦ ?_⟩
  · rintro ⟨e, he, hempty⟩
    obtain ⟨_, _, hback⟩ := hpoints e he
    rw [hempty] at hback
    obtain ⟨hfront, hnil⟩ := hback
    have htext := List.take_append_drop e.position text.toList
    rw [hnil, List.append_nil] at htext
    rwa [htext] at hfront
  · refine ⟨locate text .empty text.length, ?_, rfl⟩
    rw [parse, ofText_of_blank hblank, Parser.query_nil]

/-- The call within the conjunction is what is open, and its name stands behind a blank. -/
theorem points_at_open_call :
    parse "and(in(a,(1,2)), eq(b" = .error ⟨.unclosed, 17, "eq(b"⟩ ∧
      PointsAt ("and(in(a,(1,2)), eq(b".toList.take 17) ("and(in(a,(1,2)), eq(b".toList.drop 17)
        .unclosed := by
  have h : parse "and(in(a,(1,2)), eq(b" = .error ⟨.unclosed, 17, "eq(b"⟩ := by cbv
  exact ⟨h, ((parse_error_points _).1 _ h).2.2⟩

end ParseError

end ResourceQuery
