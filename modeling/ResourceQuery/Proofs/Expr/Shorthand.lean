import Mathlib
import ResourceQuery.Proofs.Expr.Parentheses
import ResourceQuery.Proofs.Expr.Placement

/-!
Comparisons that are written with equals signs, and the calls that they are short for. Both have two
operands, each of them one word or a tuple of operands. The text of an operand has the tokens of an
operand wherever it stands, and a reader of values takes just these tokens and no others. So both
forms are read as a call of their operator, if the two operands are values, and else neither is
read.
-/

set_option autoImplicit false

namespace ResourceQuery

open ResourceQuery.Parser (outcome)

/-- The text of an operand: one word with blanks around it and within it, or operands in parentheses
with commas between them and blanks around them. -/
inductive OperandText : List Char → Prop
  | word {cs : List Char} :
      cs.any Token.isDelimiter = false → Text.allBlank cs = false → OperandText cs
  | tuple {before after : List Char} {items : List (List Char)} :
      Text.allBlank before = true → (∀ item ∈ items, OperandText item) →
      Text.allBlank after = true →
      OperandText (before ++ '(' :: ([','].intercalate items ++ ')' :: after))

namespace Lexeme

theorem lexes_of_blank {cs : List Char} (h : Text.allBlank cs = true) : Lexes cs [] := by
  intro position
  rw [listFrom_of_none (next?_eq_none_iff.2 h), List.map_nil]

theorem Lexes.append_left {blanks cs : List Char} {ts : List Token}
    (hblanks : Text.allBlank blanks = true) (h : Lexes cs ts) : Lexes (blanks ++ cs) ts := by
  intro position
  rw [listFrom_congr (next?_append_of_none (next?_eq_none_iff.2 hblanks) cs), h]

/-- Characters without a delimiter among them are one word, if not all of them are blank. -/
theorem next?_of_word {cs : List Char} (hcs : cs.any Token.isDelimiter = false)
    (hblank : Text.allBlank cs = false) (position : Nat) :
    ∃ raw p q, next? position cs = some (⟨.word raw, p⟩, q, []) := by
  induction cs generalizing position with
  | nil => cases hblank
  | cons c cs ih =>
    have hrun : run (c :: cs) = c :: cs := by
      refine List.takeWhile_eq_self_iff.2 fun d hd ↦ ?_
      rw [Bool.not_eq_true', Bool.eq_false_iff]
      exact List.any_eq_false.1 hcs d hd
    rw [List.any_cons, Bool.or_eq_false_iff] at hcs
    rw [next?]
    cases hc : Text.isBlank c with
    | true =>
      rw [Text.allBlank, List.all_cons, hc, Bool.true_and] at hblank
      exact ih hcs.2 hblank (position + 1)
    | false =>
      have hword : Token.ofDelimiter? c = none := by simpa [Token.isDelimiter] using hcs.1
      rw [if_neg (by decide), hword]
      dsimp only
      rw [hrun, List.drop_length]
      exact ⟨_, _, _, rfl⟩

theorem exists_lexes_of_word {cs : List Char} (hcs : cs.any Token.isDelimiter = false)
    (hblank : Text.allBlank cs = false) : ∃ raw, Lexes cs [.word raw] := by
  obtain ⟨raw, p, q, hnext⟩ := next?_of_word hcs hblank 0
  refine ⟨raw, fun position ↦ ?_⟩
  rw [map_token_listFrom cs 0, listFrom_of_next? hnext, List.map_cons, lexes_nil]

end Lexeme

namespace Grammar

open Lexeme (Lexes tokens lexes_tokens)

theorem exists_isOperand {cs : List Char} (h : OperandText cs) :
    ∃ ts, Lexes cs ts ∧ IsOperand ts := by
  induction h with
  | word hcs hblank =>
    obtain ⟨raw, hlexes⟩ := Lexeme.exists_lexes_of_word hcs hblank
    exact ⟨_, hlexes, .word raw⟩
  | @tuple before after items hbefore _ hafter ih =>
    obtain ⟨parts, hparts⟩ := exists_forall₂_iff.2 ih
    -- What is read inside the parentheses is nested, because it is so in each of the items.
    have hinside : Lexes ([','].intercalate items) ([.comma].intercalate parts) ∧
        Nested ([.comma].intercalate parts) :=
      @intercalate_of_append _ _ (fun cs ts ↦ Lexes cs ts ∧ Nested ts) _ _
        ⟨Lexeme.lexes_nil, .nil⟩
        (fun hcs hds ↦ ⟨hcs.1.append_delimiter rfl hds.1,
          hcs.2.append (hds.2.cons (by simp) (by simp))⟩) _ _
        (hparts.imp fun _ _ hitem ↦ ⟨hitem.1, hitem.2.nested⟩)
    exact ⟨_, ((hinside.1.append_delimiter rfl (Lexeme.lexes_of_blank hafter)).delimiter
      rfl).append_left hbefore, .parens hinside.2⟩

theorem isOperand_tokens {text : String} (h : OperandText text.toList) :
    IsOperand (tokens text) := by
  obtain ⟨ts, hlexes, hoperand⟩ := exists_isOperand h
  rwa [Lexeme.tokens_of_lexes hlexes]

/-- A reader of values takes the tokens of an operand, no fewer and no more. -/
theorem outcome_value_eq_ok_iff {stop : Nat} {v : Value} {used rest behind : List Lexeme}
    (h : IsOperand (used.map Lexeme.token)) :
    outcome (Parser.value stop (used ++ rest)) = .ok (v, behind) ↔
      Derives (.value v) (used.map Lexeme.token) ∧ behind = rest := by
  constructor
  · intro hread
    obtain ⟨taken, hsplit, hderives⟩ := (found_value_values stop _).1 v behind hread
    have hsplits : used.map Lexeme.token ++ rest.map Lexeme.token =
        taken.map Lexeme.token ++ behind.map Lexeme.token := by
      rw [← List.map_append, ← List.map_append, hsplit]
    have htokens := h.eq_of_append hderives.isOperand hsplits
    have hlength : used.length = taken.length := by
      simpa using congrArg List.length htokens
    obtain ⟨rfl, rfl⟩ := List.append_inj hsplit hlength
    exact ⟨hderives, rfl⟩
  · rintro ⟨hderives, rfl⟩
    exact hderives.read stop used behind rfl

theorem value_bind_eq_ok_iff {α : Type} {stop : Nat} {used rest : List Lexeme}
    (h : IsOperand (used.map Lexeme.token)) {next : Value × List Lexeme → Except Parser.Fault α}
    {a : α} :
    (outcome (Parser.value stop (used ++ rest)) >>= next) = .ok a ↔
      ∃ v, Derives (.value v) (used.map Lexeme.token) ∧ next (v, rest) = .ok a := by
  simp only [bind_eq_ok_iff, Prod.exists, outcome_value_eq_ok_iff h]
  constructor
  · rintro ⟨v, _, ⟨hv, rfl⟩, hnext⟩
    exact ⟨v, hv, hnext⟩
  · rintro ⟨v, hv, hnext⟩
    exact ⟨v, rest, ⟨hv, rfl⟩, hnext⟩

/-- An operand is a plain argument, outside of `sort`. -/
theorem arg_bind_eq_ok_iff {α : Type} {stop : Nat} {used rest : List Lexeme}
    (h : IsOperand (used.map Lexeme.token)) (hnext : next? rest ≠ some .leftParen)
    {next : Arg × List Lexeme → Except Parser.Fault α} {a : α} :
    (outcome (Parser.arg stop false (used ++ rest)) >>= next) = .ok a ↔
      ∃ v, Derives (.value v) (used.map Lexeme.token) ∧ next (.value v, rest) = .ok a := by
  have harg : outcome (Parser.arg stop false (used ++ rest)) =
      outcome (Parser.value stop (used ++ rest)) >>= fun found ↦
        .ok (.value found.1, found.2) := by
    generalize hts : used.map Lexeme.token = ts at h
    cases h with
    | word raw =>
      obtain ⟨⟨_, p⟩, rfl, rfl⟩ := List.map_eq_singleton_iff.1 hts
      exact Parser.outcome_arg_word _ _ _ _ rfl (ne_cons_of_next? hnext)
    | parens =>
      obtain ⟨⟨_, p⟩, tail, rfl, rfl, -⟩ := List.map_eq_cons_iff.1 hts
      exact Parser.outcome_arg_of_not_word _ _ _ (by simp)
  rw [harg, bind_assoc, value_bind_eq_ok_iff h]
  simp only [ok_bind]

theorem operand_ne_rightParen {used rest : List Lexeme} (h : IsOperand (used.map Lexeme.token))
    (p : Nat) (behind : List Lexeme) : used ++ rest ≠ ⟨.rightParen, p⟩ :: behind := by
  intro heq
  have hmap := congrArg (List.map Lexeme.token) heq
  rw [List.map_append, List.map_cons] at hmap
  generalize used.map Lexeme.token = ts at h hmap
  cases h <;> cases hmap

/-- A query begins with a clause, and is this clause if nothing follows it. -/
theorem exists_clause_of_query {stop : Nat} {ls : List Lexeme} {c : Call}
    (h : Parser.query stop ls = .ok c) :
    ∃ first behind, outcome (Parser.clause stop ls) = .ok (first, behind) ∧
      (behind = [] → c = first) := by
  rcases ls with _ | ⟨lexeme, ls⟩
  · cases h
  rw [Parser.query_of_ne_nil _ _ (List.cons_ne_nil _ _), bind_eq_ok_iff] at h
  obtain ⟨⟨first, behind⟩, hfirst, h⟩ := h
  refine ⟨first, behind, hfirst, ?_⟩
  rintro rfl
  simp only [Parser.outcome_moreClauses_nil, ok_bind, pure_eq_ok, Except.ok.injEq] at h
  exact h.symm

/-- The call of an operator with the two values that the operands stand for. -/
def Compares (name : String) (ts us : List Token) (c : Call) : Prop :=
  ∃ field operand, Derives (.value field) ts ∧ Derives (.value operand) us ∧
    c = ⟨name, [.value field, .value operand]⟩

section Forms

variable {stop : Nat} {field operand : List Lexeme} {name : String} {ts us : List Token} {c : Call}

theorem compares_of_equality (hfield : IsOperand (field.map Lexeme.token))
    (hoperand : IsOperand (operand.map Lexeme.token)) {p : Nat} {behind : List Lexeme}
    (h : outcome (Parser.clause stop (field ++ ⟨.equals, p⟩ :: operand)) = .ok (c, behind)) :
    Compares "eq" (field.map Lexeme.token) (operand.map Lexeme.token) c ∧ behind = [] := by
  rw [clause_eq_comparison hfield rfl (next?_cons ..), Parser.outcome_comparison,
    value_bind_eq_ok_iff hfield] at h
  obtain ⟨v, hv, h⟩ := h
  dsimp only at h
  split at h
  · next heq =>
    have hname := operand_ne_name hoperand rfl (by simp [next?] : next? [] ≠ some .equals)
    rw [List.append_nil] at hname
    exact absurd (List.cons.inj heq).2 (hname _ _ _ _)
  · next heq =>
    obtain ⟨_, rfl⟩ := List.cons.inj heq
    rw [← List.append_nil operand, value_bind_eq_ok_iff hoperand] at h
    obtain ⟨w, hw, ⟨⟩⟩ := h
    exact ⟨⟨v, w, hv, hw, rfl⟩, rfl⟩
  · cases h

theorem compares_of_comparison (hname : IsName name) (hfield : IsOperand (field.map Lexeme.token))
    (hoperand : IsOperand (operand.map Lexeme.token)) {p q r : Nat} {behind : List Lexeme}
    (h : outcome (Parser.clause stop (field ++ ⟨.equals, p⟩ :: ⟨.word name, q⟩ :: ⟨.equals, r⟩ ::
      operand)) = .ok (c, behind)) :
    Compares name (field.map Lexeme.token) (operand.map Lexeme.token) c ∧ behind = [] := by
  rw [clause_eq_comparison hfield rfl (next?_cons ..), Parser.outcome_comparison,
    value_bind_eq_ok_iff hfield] at h
  obtain ⟨v, hv, h⟩ := h
  dsimp only at h
  rw [checkName_of_isName hname, ok_bind, ← List.append_nil operand,
    value_bind_eq_ok_iff hoperand] at h
  obtain ⟨w, hw, ⟨⟩⟩ := h
  exact ⟨⟨v, w, hv, hw, rfl⟩, rfl⟩

theorem compares_of_call (hname : IsName name) (hsort : name ≠ "sort")
    (hfield : IsOperand (field.map Lexeme.token))
    (hoperand : IsOperand (operand.map Lexeme.token)) {p q r t : Nat} {behind : List Lexeme}
    (h : outcome (Parser.clause stop (⟨.word name, p⟩ :: ⟨.leftParen, q⟩ :: (field ++
      ⟨.comma, r⟩ :: (operand ++ [⟨.rightParen, t⟩])))) = .ok (c, behind)) :
    Compares name (field.map Lexeme.token) (operand.map Lexeme.token) c ∧ behind = [] := by
  rw [Parser.outcome_clause_call, checkName_of_isName hname, ok_bind,
    beq_eq_false_iff_ne.2 hsort,
    Parser.outcome_arguments_of_ne _ _ _ _ (operand_ne_rightParen hfield), bind_assoc,
    Parser.outcome_args, bind_assoc, arg_bind_eq_ok_iff hfield (by simp [next?])] at h
  obtain ⟨v, hv, h⟩ := h
  dsimp only at h
  rw [bind_assoc, Parser.outcome_args, bind_assoc,
    arg_bind_eq_ok_iff hoperand (by simp [next?])] at h
  obtain ⟨w, hw, h⟩ := h
  simp only [Parser.outcome_close_rightParen, ok_bind, pure_eq_ok] at h
  cases h
  exact ⟨⟨v, w, hv, hw, rfl⟩, rfl⟩

/-- Lexemes that are read as one clause with two operands. -/
theorem derives_query_iff_compares (stop : Nat) {ls : List Lexeme}
    (hread : ∀ {c behind}, outcome (Parser.clause stop ls) = .ok (c, behind) →
      Compares name ts us c ∧ behind = [])
    (hderives : ∀ {c}, Compares name ts us c → Derives (.clause c) (ls.map Lexeme.token)) :
    Derives (.query c) (ls.map Lexeme.token) ↔ Compares name ts us c := by
  constructor
  · intro h
    obtain ⟨first, behind, hclause, hfirst⟩ :=
      exists_clause_of_query (query_eq_ok_iff.2 h : Parser.query stop ls = .ok c)
    obtain ⟨hcompares, hbehind⟩ := hread hclause
    rwa [hfirst hbehind]
  · exact fun h ↦ (hderives h).query_of_clause

theorem derives_equality_iff (hts : IsOperand ts) (hus : IsOperand us) :
    Derives (.query c) (ts ++ .equals :: us) ↔ Compares "eq" ts us c := by
  obtain ⟨field, rfl⟩ := exists_lexemes ts
  obtain ⟨operand, rfl⟩ := exists_lexemes us
  have hmap : (field ++ ⟨.equals, 0⟩ :: operand).map Lexeme.token =
      field.map Lexeme.token ++ .equals :: operand.map Lexeme.token := List.map_append ..
  rw [← hmap]
  refine derives_query_iff_compares 0 (compares_of_equality hts hus) ?_
  rintro _ ⟨v, w, hv, hw, rfl⟩
  rw [hmap]
  exact .clauseComparison (.equality hv hw)

theorem derives_comparison_iff (hname : IsName name) (hts : IsOperand ts) (hus : IsOperand us) :
    Derives (.query c) (ts ++ .equals :: .word name :: .equals :: us) ↔
      Compares name ts us c := by
  obtain ⟨field, rfl⟩ := exists_lexemes ts
  obtain ⟨operand, rfl⟩ := exists_lexemes us
  have hmap : (field ++ ⟨.equals, 0⟩ :: ⟨.word name, 0⟩ :: ⟨.equals, 0⟩ :: operand).map
      Lexeme.token = field.map Lexeme.token ++ .equals :: .word name :: .equals ::
        operand.map Lexeme.token := List.map_append ..
  rw [← hmap]
  refine derives_query_iff_compares 0 (compares_of_comparison hname hts hus) ?_
  rintro _ ⟨v, w, hv, hw, rfl⟩
  rw [hmap]
  exact .clauseComparison (.comparison hname hv hw)

theorem derives_call_iff (hname : IsName name) (hsort : name ≠ "sort") (hts : IsOperand ts)
    (hus : IsOperand us) :
    Derives (.query c) (.word name :: .leftParen :: (ts ++ .comma :: (us ++ [.rightParen]))) ↔
      Compares name ts us c := by
  obtain ⟨field, rfl⟩ := exists_lexemes ts
  obtain ⟨operand, rfl⟩ := exists_lexemes us
  have hmap : ((⟨.word name, 0⟩ : Lexeme) :: ⟨.leftParen, 0⟩ :: (field ++ ⟨.comma, 0⟩ ::
      (operand ++ [⟨.rightParen, 0⟩]))).map Lexeme.token = .word name :: .leftParen ::
        (field.map Lexeme.token ++ .comma :: (operand.map Lexeme.token ++ [.rightParen])) := by
    simp
  rw [← hmap]
  refine derives_query_iff_compares 0 (compares_of_call hname hsort hts hus) ?_
  rintro _ ⟨v, w, hv, hw, rfl⟩
  rw [hmap, List.append_cons, ← List.append_assoc, List.append_assoc _ [Token.comma]]
  refine .clauseCall (.call hname ?_)
  rw [beq_eq_false_iff_ne.2 hsort]
  exact .argsCons (.argValue (by simp) hv) (.argsOne (.argValue (by simp) hw))

end Forms

section Texts

variable {first second name : String} {tree : Call}

theorem parse_equality_iff (hfirst : OperandText first.toList)
    (hsecond : OperandText second.toList) :
    parse (first ++ "=" ++ second) = .ok tree ↔
      Compares "eq" (tokens first) (tokens second) tree := by
  have htokens : tokens (first ++ "=" ++ second) = tokens first ++ .equals :: tokens second := by
    refine Lexeme.tokens_of_lexes ?_
    simpa using (lexes_tokens first).append_delimiter rfl (lexes_tokens second)
  rw [parse_iff_derives_query, htokens]
  exact derives_equality_iff (isOperand_tokens hfirst) (isOperand_tokens hsecond)

theorem parse_comparison_iff (hname : IsName name) (hfirst : OperandText first.toList)
    (hsecond : OperandText second.toList) :
    parse (first ++ "=" ++ name ++ "=" ++ second) = .ok tree ↔
      Compares name (tokens first) (tokens second) tree := by
  have htokens : tokens (first ++ "=" ++ name ++ "=" ++ second) =
      tokens first ++ .equals :: .word name :: .equals :: tokens second := by
    refine Lexeme.tokens_of_lexes ?_
    have hbehind := ((lexes_tokens second).delimiter (c := '=') rfl).word
      (Printer.isWord_name hname) (Printer.endsWord_of_delimiter rfl _)
    simpa using (lexes_tokens first).append_delimiter rfl hbehind
  rw [parse_iff_derives_query, htokens]
  exact derives_comparison_iff hname (isOperand_tokens hfirst) (isOperand_tokens hsecond)

theorem parse_call_iff (hname : IsName name) (hsort : name ≠ "sort")
    (hfirst : OperandText first.toList) (hsecond : OperandText second.toList) :
    parse (name ++ "(" ++ first ++ "," ++ second ++ ")") = .ok tree ↔
      Compares name (tokens first) (tokens second) tree := by
  have htokens : tokens (name ++ "(" ++ first ++ "," ++ second ++ ")") = .word name ::
      .leftParen :: (tokens first ++ .comma :: (tokens second ++ [.rightParen])) := by
    refine Lexeme.tokens_of_lexes ?_
    have hclosed := (lexes_tokens second).append_delimiter (d := ')') rfl Lexeme.lexes_nil
    have hargs := ((lexes_tokens first).append_delimiter (d := ',') rfl hclosed).delimiter
      (c := '(') rfl
    simpa using hargs.word (Printer.isWord_name hname) (Printer.endsWord_of_delimiter rfl _)
  rw [parse_iff_derives_query, htokens]
  exact derives_call_iff hname hsort (isOperand_tokens hfirst) (isOperand_tokens hsecond)

/-- For operands that are words or tuples, a comparison with one equals sign is read as the call of
`eq`, and one with a name between two equals signs as the call of this name, if it is not `sort`.
Where the call is not read, neither is the comparison. -/
theorem parse_shorthand (hfirst : OperandText first.toList) (hsecond : OperandText second.toList) :
    (parse (first ++ "=" ++ second)).toOption =
        (parse ("eq(" ++ first ++ "," ++ second ++ ")")).toOption ∧
      ∀ {name : String}, IsName name → name ≠ "sort" →
        (parse (first ++ "=" ++ name ++ "=" ++ second)).toOption =
          (parse (name ++ "(" ++ first ++ "," ++ second ++ ")")).toOption := by
  have heq : IsName "eq" := (isName_iff "eq").2 (by decide)
  refine ⟨Option.ext fun tree ↦ ?_, fun {name} hname hsort ↦ Option.ext fun tree ↦ ?_⟩
  · rw [toOption_eq_some_iff, toOption_eq_some_iff, parse_equality_iff hfirst hsecond]
    exact (parse_call_iff heq (by decide) hfirst hsecond).symm
  · rw [toOption_eq_some_iff, toOption_eq_some_iff, parse_comparison_iff hname hfirst hsecond,
      parse_call_iff hname hsort hfirst hsecond]

/-- A tuple with a word of two parts inside, compared to a word with blanks around it. -/
theorem parse_shorthand_of_tuple :
    OperandText "(a,(b c,d))".toList ∧ OperandText " 5 ".toList ∧
    parse "(a,(b c,d))=le= 5 " = .ok ⟨"le", [.value (.array [.string "a",
      .array [.string "b c", .string "d"]]), .value (.integer 5)]⟩ ∧
    parse "le((a,(b c,d)), 5 )" = .ok ⟨"le", [.value (.array [.string "a",
      .array [.string "b c", .string "d"]]), .value (.integer 5)]⟩ := by
  have hinner : OperandText "(b c,d)".toList :=
    @OperandText.tuple [] [] ["b c".toList, "d".toList] rfl
      (List.forall_mem_cons.2 ⟨.word rfl rfl,
        List.forall_mem_singleton.2 (.word rfl rfl)⟩) rfl
  have hfirst : OperandText "(a,(b c,d))".toList :=
    @OperandText.tuple [] [] ["a".toList, "(b c,d)".toList] rfl
      (List.forall_mem_cons.2 ⟨.word rfl rfl, List.forall_mem_singleton.2 hinner⟩) rfl
  have hsecond : OperandText " 5 ".toList := .word rfl rfl
  have hcomparison : parse "(a,(b c,d))=le= 5 " = .ok ⟨"le", [.value (.array [.string "a",
      .array [.string "b c", .string "d"]]), .value (.integer 5)]⟩ := by cbv
  have hname : IsName "le" := (isName_iff "le").2 (by decide)
  refine ⟨hfirst, hsecond, hcomparison, toOption_eq_some_iff.1 ?_⟩
  rw [← toOption_eq_some_iff.2 hcomparison]
  exact ((parse_shorthand hfirst hsecond).2 hname (by decide)).symm

end Texts

end Grammar

end ResourceQuery
