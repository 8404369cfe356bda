import Mathlib.Combinatorics.Enumerative.DyckWord
import ResourceQuery.Proofs.Expr.Juxtaposition

/-!
Where the lexemes of a text stand in it. The text up to the position of a lexeme has the parentheses
of the lexemes in front of it, and the text from there on begins with the characters that the lexeme
is read off. Parentheses that close one another are a Dyck word: a parenthesis opens with a step up
and closes with a step down.
-/

set_option autoImplicit false

namespace ResourceQuery

namespace Text

def paren? : Char → Option DyckStep
  | '(' => some .U
  | ')' => some .D
  | _ => none

/-- The parentheses of a text, in their order. -/
def parens (cs : List Char) : List DyckStep :=
  cs.filterMap paren?

/-- The parentheses of a text close one another. -/
def Balanced (cs : List Char) : Prop :=
  ∃ word : DyckWord, word.toList = parens cs

/-- Behind an open parenthesis, the text has the one that closes it. -/
def Closes (cs : List Char) : Prop :=
  ∃ inside after, cs = inside ++ ')' :: after ∧ Balanced inside

theorem parens_append (cs ds : List Char) : parens (cs ++ ds) = parens cs ++ parens ds :=
  List.filterMap_append

theorem parens_cons (c : Char) (cs : List Char) :
    parens (c :: cs) = (paren? c).toList ++ parens cs := by
  simp only [parens, List.filterMap_eq_flatMap_toList, List.flatMap_cons]

theorem parens_eq_nil {cs : List Char} (h : ∀ c ∈ cs, paren? c = none) : parens cs = [] :=
  List.filterMap_eq_nil_iff.2 h

/-- Steps that close one another do not begin with such steps and one more that closes. -/
theorem dyckWord_ne_append (word inner : DyckWord) (after : List DyckStep) :
    word.toList ≠ inner.toList ++ .D :: after := by
  intro h
  -- Up to the step that closes, there is one more that closes than opens.
  have htake : word.toList.take (inner.toList.length + 1) = inner.toList ++ [.D] := by
    rw [h]
    exact List.take_length_add_append 1
  have hle := word.count_D_le_count_U (inner.toList.length + 1)
  rw [htake, List.count_append, List.count_append, inner.count_U_eq_count_D] at hle
  simp at hle

theorem Balanced.not_closes {cs : List Char} (h : Balanced cs) : ¬ Closes cs := by
  rintro ⟨inside, after, rfl, inner, hinner⟩
  obtain ⟨word, hword⟩ := h
  refine dyckWord_ne_append word inner (parens after) ?_
  rw [hword, parens_append, parens_cons, ← hinner]
  rfl

end Text

namespace Lexeme

/-- The characters up to the next delimiter, without the blanks around them. -/
def trimmedRun (cs : List Char) : String :=
  String.ofList (Text.trimLeft (Text.trimRight (run cs)))

end Lexeme

namespace Token

open Lexeme (run trimmedRun)

def paren? : Token → Option DyckStep
  | .leftParen => some .U
  | .rightParen => some .D
  | _ => none

/-- The parentheses among tokens, in their order. -/
def parens (ts : List Token) : List DyckStep :=
  ts.filterMap paren?

theorem parens_cons (token : Token) (ts : List Token) :
    parens (token :: ts) = token.paren?.toList ++ parens ts := by
  simp only [parens, List.filterMap_eq_flatMap_toList, List.flatMap_cons]

theorem paren?_eq_bind (c : Char) : Text.paren? c = (ofDelimiter? c).bind paren? := by
  unfold Text.paren? ofDelimiter?
  split
  · rfl
  · rfl
  · split <;> simp_all [paren?]

/-- How a token is written: `cs` are its characters, in front of `rest`. The characters of a word go
up to the next delimiter and the token is without the blanks at their end. -/
inductive Spelled : Token → List Char → List Char → Prop
  | delimiter {token : Token} {c : Char} {rest : List Char} :
      ofDelimiter? c = some token → Spelled token [c] rest
  | word {c : Char} {cs rest : List Char} :
      Text.isBlank c = false → run (c :: cs ++ rest) = c :: cs →
      Spelled (.word (String.ofList (Text.trimRight (c :: cs)))) (c :: cs) rest

theorem isDelimiter_of_mem_run {c : Char} {cs : List Char} (h : c ∈ run cs) :
    isDelimiter c = false := by
  simpa using List.mem_takeWhile_imp h

theorem Spelled.parens {token : Token} {cs rest : List Char} (h : token.Spelled cs rest) :
    Text.parens cs = token.paren?.toList := by
  cases h with
  | delimiter hc =>
    rw [Text.parens_cons, paren?_eq_bind, hc, Option.bind_some]
    exact List.append_nil _
  | word _ hrun =>
    refine Text.parens_eq_nil fun d hd ↦ ?_
    rw [← hrun] at hd
    have hnone := Option.isSome_eq_false_iff.1 (isDelimiter_of_mem_run hd)
    rw [paren?_eq_bind, Option.isNone_iff_eq_none.1 hnone, Option.bind_none]

theorem toList_text_of_delimiter {c : Char} {token : Token} (h : ofDelimiter? c = some token) :
    token.text.toList = [c] := by
  unfold ofDelimiter? at h
  split at h <;> cases h <;> rfl

theorem ofDelimiter?_ne_word (c : Char) (raw : String) : ofDelimiter? c ≠ some (.word raw) := by
  unfold ofDelimiter?
  split <;> simp

theorem Spelled.eq_singleton {token : Token} {cs rest : List Char} (h : token.Spelled cs rest)
    (c : Char) (hc : ofDelimiter? c = some token) : cs = [c] := by
  cases h with
  | delimiter hd => rw [← toList_text_of_delimiter hc, toList_text_of_delimiter hd]
  | word => exact absurd hc (ofDelimiter?_ne_word c _)

/-- A word is written from its first character on up to the next delimiter. -/
theorem Spelled.exists_of_word {raw : String} {cs rest : List Char}
    (h : (Token.word raw).Spelled cs rest) :
    ∃ c tail, cs = c :: tail ∧ Text.isBlank c = false ∧ run (cs ++ rest) = cs ∧
      raw = String.ofList (c :: Text.trimRight tail) := by
  cases h with
  | delimiter hc => exact absurd hc (ofDelimiter?_ne_word _ raw)
  | @word c tail rest hblank hrun =>
    exact ⟨c, tail, rfl, hblank, hrun, by rw [Text.trimRight_cons_of_not_blank hblank]⟩

/-- Only blanks are left out of what a token is read off. -/
theorem Spelled.text_append_blanks {token : Token} {cs rest : List Char}
    (h : token.Spelled cs rest) :
    ∃ blanks, cs = token.text.toList ++ blanks ∧ ∀ c ∈ blanks, Text.isBlank c = true := by
  cases h with
  | delimiter hc =>
    rw [toList_text_of_delimiter hc]
    exact ⟨[], (List.append_nil _).symm, List.forall_mem_nil _⟩
  | @word c tail rest hblank hrun =>
    rw [text, String.toList_ofList]
    exact Text.trimRight_append_blanks (c :: tail)

theorem Spelled.text_prefix {token : Token} {cs rest : List Char} (h : token.Spelled cs rest) :
    token.text.toList <+: cs := by
  obtain ⟨blanks, hsplit, -⟩ := h.text_append_blanks
  exact ⟨blanks, hsplit.symm⟩

theorem Spelled.ne_nil {token : Token} {cs rest : List Char} (h : token.Spelled cs rest) :
    cs ≠ [] := by
  cases h with
  | delimiter => exact List.cons_ne_nil _ _
  | word => exact List.cons_ne_nil _ _

theorem Spelled.trimmedRun_eq {raw : String} {cs rest : List Char}
    (h : (Token.word raw).Spelled cs rest) : trimmedRun (cs ++ rest) = raw := by
  obtain ⟨c, tail, rfl, hblank, hrun, rfl⟩ := h.exists_of_word
  rw [trimmedRun, hrun, Text.trimRight_cons_of_not_blank hblank, Text.trimLeft_eq_self hblank]

theorem run_of_run_cons {c : Char} {cs : List Char} {rest : List Char}
    (h : run (c :: cs ++ rest) = c :: cs) : run (cs ++ rest) = cs := by
  rw [List.cons_append, run, List.takeWhile_cons] at h
  split at h
  · exact (List.cons.inj h).2
  · cases h

/-- Behind the sign of a sort key, the text goes on with the key. -/
theorem Spelled.trimmedRun_key {direction : Direction} {key signed : String} {cs rest : List Char}
    (h : (Token.word signed).Spelled cs rest) (hsigned : Grammar.SignedWord direction key signed) :
    ∃ sign tail, cs = sign :: tail ∧ trimmedRun (tail ++ rest) = key := by
  obtain ⟨c, tail, rfl, _, hrun, rfl⟩ := h.exists_of_word
  refine ⟨c, tail, rfl, ?_⟩
  have hsplit := Grammar.splitDirection?_eq_some_iff.2 hsigned
  simp only [Parser.splitDirection?, String.toList_ofList, Option.map_eq_some_iff,
    Prod.mk.injEq] at hsplit
  obtain ⟨_, _, _, rfl⟩ := hsplit
  rw [trimmedRun, run_of_run_cons hrun]

/-- A word ends at a delimiter or at the end of the text. -/
theorem Spelled.isDelimiter_of_word {raw : String} {cs rest : List Char} {c : Char}
    (h : (Token.word raw).Spelled cs (c :: rest)) : isDelimiter c = true := by
  obtain ⟨_, _, _, _, hrun, _⟩ := h.exists_of_word
  have hcs : ∀ d ∈ cs, (!isDelimiter d) = true := by
    intro d hd
    rw [← hrun] at hd
    rw [isDelimiter_of_mem_run hd, Bool.not_false]
  rw [run, List.takeWhile_append_of_pos hcs] at hrun
  by_contra hc
  simp [hc] at hrun

theorem not_isBlank_of_isDelimiter {c : Char} (h : isDelimiter c = true) :
    Text.isBlank c = false := by
  obtain ⟨token, htoken⟩ := Option.isSome_iff_exists.1 h
  exact Lexeme.isBlank_of_delimiter htoken

theorem Spelled.not_blank_of_word {raw : String} {cs rest : List Char} {c : Char}
    (h : (Token.word raw).Spelled cs (c :: rest)) : Text.isBlank c = false :=
  not_isBlank_of_isDelimiter h.isDelimiter_of_word

end Token

namespace Lexeme

/-- The lexemes are written in a text that starts at a position, with blanks between them. -/
inductive Placed : Nat → List Char → List Lexeme → Prop
  | nil {position : Nat} {blanks : List Char} :
      (∀ c ∈ blanks, Text.isBlank c = true) → Placed position blanks []
  | cons {position : Nat} {blanks cs rest : List Char} {token : Token} {ls : List Lexeme} :
      (∀ c ∈ blanks, Text.isBlank c = true) → token.Spelled cs rest →
      Placed (position + blanks.length + cs.length) rest ls →
      Placed position (blanks ++ (cs ++ rest)) (⟨token, position + blanks.length⟩ :: ls)

theorem exists_of_next? {position behind : Nat} {text rest : List Char} {lexeme : Lexeme}
    (h : next? position text = some (lexeme, behind, rest)) :
    ∃ blanks cs, text = blanks ++ (cs ++ rest) ∧ (∀ c ∈ blanks, Text.isBlank c = true) ∧
      lexeme.token.Spelled cs rest ∧ lexeme.position = position + blanks.length ∧
      behind = lexeme.position + cs.length := by
  induction text generalizing position with
  | nil => cases h
  | cons c text ih =>
    rw [next?] at h
    cases hblank : Text.isBlank c with
    | true =>
      rw [hblank] at h
      obtain ⟨blanks, cs, rfl, hblanks, hspelled, hposition, hbehind⟩ := ih h
      refine ⟨c :: blanks, cs, rfl, List.forall_mem_cons.2 ⟨hblank, hblanks⟩, hspelled, ?_, hbehind⟩
      rw [hposition, List.length_cons]
      omega
    | false =>
      rw [hblank, if_neg (by decide)] at h
      cases htoken : Token.ofDelimiter? c with
      | some token =>
        rw [htoken] at h
        cases h
        exact ⟨[], [c], rfl, by simp, .delimiter htoken, rfl, rfl⟩
      | none =>
        rw [htoken] at h
        cases h
        have hsplit : run (c :: text) ++ (c :: text).drop (run (c :: text)).length = c :: text :=
          (List.prefix_append_drop (List.takeWhile_prefix _)).symm
        refine ⟨[], run (c :: text), hsplit.symm, by simp, ?_, rfl, rfl⟩
        rw [run_cons_of_not_delimiter htoken] at hsplit ⊢
        refine .word hblank ?_
        rw [hsplit, run_cons_of_not_delimiter htoken]

theorem placed_listFrom (position : Nat) (cs : List Char) :
    Placed position cs (listFrom position cs) := by
  cases h : next? position cs with
  | none =>
    rw [listFrom_of_none h]
    exact .nil (List.all_eq_true.1 (next?_eq_none_iff.1 h))
  | some found =>
    obtain ⟨⟨token, start⟩, behind, rest⟩ := found
    rw [listFrom_of_next? h]
    have hrest := placed_listFrom behind rest
    obtain ⟨blanks, spelling, rfl, hblanks, hspelled, rfl, rfl⟩ := exists_of_next? h
    exact .cons hblanks hspelled hrest
termination_by cs.length
decreasing_by exact length_of_next? h

theorem parens_of_blank {cs : List Char} (h : ∀ c ∈ cs, Text.isBlank c = true) :
    Text.parens cs = [] := by
  refine Text.parens_eq_nil fun c hc ↦ ?_
  cases hdelimiter : Token.ofDelimiter? c with
  | none => rw [Token.paren?_eq_bind, hdelimiter, Option.bind_none]
  | some token => exact absurd (h c hc) (by simp [isBlank_of_delimiter hdelimiter])

/-- The text in front of a lexeme has the parentheses of the lexemes in front of it. -/
theorem Placed.split {position : Nat} {text : List Char} {before behind : List Lexeme}
    {lexeme : Lexeme} (h : Placed position text (before ++ lexeme :: behind)) :
    ∃ front cs rest, text = front ++ (cs ++ rest) ∧ lexeme.position = position + front.length ∧
      Text.parens front = Token.parens (before.map Lexeme.token) ∧
      lexeme.token.Spelled cs rest ∧ Placed (lexeme.position + cs.length) rest behind := by
  induction before generalizing position text with
  | nil =>
    cases h with
    | cons hblanks hspelled hrest =>
      exact ⟨_, _, _, rfl, rfl, parens_of_blank hblanks, hspelled, hrest⟩
  | cons first before ih =>
    cases h with
    | @cons _ blanks spelling _ token _ hblanks hspelled hrest =>
      obtain ⟨front, cs, rest, rfl, hposition, hparens, hlexeme, hbehind⟩ := ih hrest
      refine ⟨blanks ++ spelling ++ front, cs, rest, by simp, ?_, ?_, hlexeme, hbehind⟩
      · simp only [hposition, List.length_append]
        omega
      · rw [Text.parens_append, Text.parens_append, parens_of_blank hblanks, hspelled.parens,
          hparens, List.nil_append, List.map_cons, Token.parens_cons]

theorem Placed.parens {position : Nat} {text : List Char} {ls : List Lexeme}
    (h : Placed position text ls) :
    Text.parens text = Token.parens (ls.map Lexeme.token) := by
  induction h with
  | nil hblanks => exact parens_of_blank hblanks
  | @cons _ blanks spelling _ token _ hblanks hspelled _ ih =>
    rw [Text.parens_append, Text.parens_append, parens_of_blank hblanks, hspelled.parens, ih,
      List.nil_append, List.map_cons, Token.parens_cons]

end Lexeme

namespace Grammar

theorem Nested.exists_dyckWord {ts : List Token} (h : Nested ts) :
    ∃ word : DyckWord, word.toList = Token.parens ts := by
  induction h with
  | nil => exact ⟨0, rfl⟩
  | append _ _ ih ih' =>
    obtain ⟨word, hword⟩ := ih
    obtain ⟨word', hword'⟩ := ih'
    refine ⟨word + word', ?_⟩
    rw [Token.parens, List.filterMap_append, ← Token.parens, ← Token.parens, ← hword, ← hword']
    rfl
  | parens _ ih =>
    obtain ⟨word, hword⟩ := ih
    refine ⟨word.nest, ?_⟩
    rw [Token.parens_cons, Token.parens, List.filterMap_append, ← Token.parens, ← hword]
    rfl
  | cons hleft hright _ ih =>
    rw [Token.parens_cons]
    simpa [Token.paren?, hleft, hright] using ih

theorem Nested.ne_append_rightParen {ts inside after : List Token} (h : Nested ts)
    (hinside : Nested inside) : ts ≠ inside ++ .rightParen :: after := by
  rintro rfl
  obtain ⟨word, hword⟩ := h.exists_dyckWord
  obtain ⟨inner, hinner⟩ := hinside.exists_dyckWord
  refine Text.dyckWord_ne_append word inner (Token.parens after) ?_
  rw [hword, Token.parens, List.filterMap_append, ← Token.parens, ← Token.parens,
    Token.parens_cons, hinner]
  rfl

/-- Behind an open parenthesis there is only one that closes it. -/
theorem Nested.eq_of_rightParen {ts us after behind : List Token} (hts : Nested ts)
    (hus : Nested us) (h : ts ++ .rightParen :: after = us ++ .rightParen :: behind) :
    ts = us := by
  obtain ⟨more, rfl, hmore⟩ | ⟨more, rfl, hmore⟩ := List.append_eq_append_iff.1 h
  · rcases more with _ | ⟨token, more⟩
    · exact (List.append_nil ts).symm
    · obtain ⟨rfl, -⟩ := List.cons.inj hmore
      exact absurd rfl (hus.ne_append_rightParen hts)
  · rcases more with _ | ⟨token, more⟩
    · exact List.append_nil us
    · obtain ⟨rfl, -⟩ := List.cons.inj hmore
      exact absurd rfl (hts.ne_append_rightParen hus)

/-- No operand is the beginning of another one. -/
theorem IsOperand.eq_of_append {ts us after behind : List Token} (hts : IsOperand ts)
    (hus : IsOperand us) (h : ts ++ after = us ++ behind) : ts = us := by
  cases hts with
  | word raw =>
    cases hus with
    | word other => rw [(List.cons.inj h).1]
    | parens => cases h
  | parens hinside =>
    cases hus with
    | word other => cases h
    | parens hother =>
      rw [List.cons_append, List.cons_append, List.append_assoc, List.append_assoc] at h
      rw [hinside.eq_of_rightParen hother (List.cons.inj h).2]

end Grammar

end ResourceQuery
