import ResourceQuery.Proofs.Expr.Soundness

/-!
The parser accepts exactly its grammar. The second half of that is here: what the tokens of a phrase
derive, the reader of the phrase finds in front of whatever cannot continue it. The readers look at
one token ahead, except for a parenthesis at the start of a clause. There the parentheses of a
derivation, which close one another, tell a tuple of names from a group.
-/

set_option autoImplicit false

open ResourceQuery.Parser (Joint outcome closesBeforeEquals)

namespace ResourceQuery.Grammar

/-- The parentheses among the tokens close one another: looking for the parenthesis that closes an
open one, a reader passes over all of them. -/
def Balanced (ts : List Token) : Prop :=
  ∀ (used rest : List Lexeme) (depth : Nat), used.map Lexeme.token = ts →
    closesBeforeEquals (depth + 1) (used ++ rest) = closesBeforeEquals (depth + 1) rest

theorem balanced_nil : Balanced [] := by
  intro used rest depth hused
  rw [List.map_eq_nil_iff.1 hused, List.nil_append]

theorem Balanced.append {ts us : List Token} (hts : Balanced ts) (hus : Balanced us) :
    Balanced (ts ++ us) := by
  intro used rest depth hused
  obtain ⟨first, second, rfl, hfirst, hsecond⟩ := List.map_eq_append_iff.1 hused
  rw [List.append_assoc, hts first _ depth hfirst, hus second rest depth hsecond]

theorem Balanced.parens {ts : List Token} (hts : Balanced ts) :
    Balanced (.leftParen :: (ts ++ [.rightParen])) := by
  intro used rest depth hused
  obtain ⟨⟨_, p⟩, tail, rfl, rfl, htail⟩ := List.map_eq_cons_iff.1 hused
  obtain ⟨inner, last, rfl, hinner, hlast⟩ := List.map_eq_append_iff.1 htail
  obtain ⟨⟨_, q⟩, rfl, rfl⟩ := List.map_eq_singleton_iff.1 hlast
  rw [List.cons_append, closesBeforeEquals, List.append_assoc, hts inner _ (depth + 1) hinner]
  simp [closesBeforeEquals]

theorem Balanced.cons {token : Token} {ts : List Token} (hleft : token ≠ .leftParen)
    (hright : token ≠ .rightParen) (hts : Balanced ts) : Balanced (token :: ts) := by
  intro used rest depth hused
  obtain ⟨⟨other, p⟩, tail, rfl, rfl, htail⟩ := List.map_eq_cons_iff.1 hused
  rw [← hts tail rest depth htail]
  cases other <;> simp_all [closesBeforeEquals]

theorem Nested.balanced {ts : List Token} (h : Nested ts) : Balanced ts := by
  induction h with
  | nil => exact balanced_nil
  | append _ _ ih ih' => exact ih.append ih'
  | parens _ ih => exact ih.parens
  | cons hleft hright _ ih => exact ih.cons hleft hright

/-- The token behind what has been read. -/
def next? (rest : List Lexeme) : Option Token :=
  rest.head?.map Lexeme.token

theorem closesBeforeEquals_parens {ts : List Token} (hts : Balanced ts) {used rest : List Lexeme}
    (hused : used.map Lexeme.token = ts) (p : Nat) :
    closesBeforeEquals 1 (used ++ ⟨.rightParen, p⟩ :: rest) = (next? rest == some .equals) := by
  rw [hts used _ 0 hused]
  simp [closesBeforeEquals, next?]

/-- Every phrase but an empty tail starts with a word or an opening parenthesis. -/
theorem Derives.head_ne_rightParen {phrase : Phrase} {ts : List Token} (h : Derives phrase ts) :
    (∃ joint cs, phrase = .tail joint cs) ∨ ∃ t us, ts = t :: us ∧ t ≠ .rightParen := by
  induction h with
  | query _ _ _ ihfirst _ =>
    obtain ⟨_, _, ⟨⟩⟩ | ⟨t, us, rfl, ht⟩ := ihfirst
    exact .inr ⟨t, _, rfl, ht⟩
  | tailNil | tailCons => exact .inl ⟨_, _, rfl⟩
  | group | callEmpty | call | sortWord | sortArray | valueWord | array =>
    exact .inr ⟨_, _, rfl, by simp⟩
  | equality _ _ ihfirst _ | comparison _ _ _ ihfirst _ | argsCons _ _ ihfirst _
  | valuesCons _ _ ihfirst _ =>
    obtain ⟨_, _, ⟨⟩⟩ | ⟨t, us, rfl, ht⟩ := ihfirst
    exact .inr ⟨t, _, rfl, ht⟩
  | clauseGroup _ ih | clauseCall _ ih | clauseComparison _ ih | argsOne _ ih | argCall _ ih
  | argSort _ ih | argValue _ _ ih | valueArray _ ih | valuesOne _ ih =>
    obtain ⟨_, _, ⟨⟩⟩ | ih := ih
    exact .inr ih

/-- A clause whose first value is followed by an equals sign is read as a comparison. -/
theorem clause_eq_comparison {stop : Nat} {ts : List Token} (h : IsOperand ts)
    {used rest : List Lexeme} (hused : used.map Lexeme.token = ts)
    (hnext : next? rest = some .equals) :
    outcome (Parser.clause stop (used ++ rest)) =
      outcome (Parser.comparison stop (used ++ rest)) := by
  cases h with
  | word =>
    obtain ⟨⟨_, p⟩, rfl, rfl⟩ := List.map_eq_singleton_iff.1 hused
    rcases rest with _ | ⟨⟨token, q⟩, rest⟩
    · simp [next?] at hnext
    obtain rfl : token = .equals := by simpa [next?] using hnext
    exact Parser.outcome_clause_comparison ..
  | parens hnested =>
    obtain ⟨⟨_, p⟩, tail, rfl, rfl, htail⟩ := List.map_eq_cons_iff.1 hused
    obtain ⟨inner, last, rfl, hinner, hlast⟩ := List.map_eq_append_iff.1 htail
    obtain ⟨⟨_, q⟩, rfl, rfl⟩ := List.map_eq_singleton_iff.1 hlast
    rw [List.cons_append]
    refine Parser.outcome_clause_tuple _ _ _ ?_
    rw [List.append_assoc, List.singleton_append,
      closesBeforeEquals_parens hnested.balanced hinner, hnext, beq_self_eq_true]

/-- The readers find what the tokens derive, whatever follows, if only the next token cannot belong
to the phrase. -/
def Read (stop : Nat) : Phrase → List Token → Prop
  | .query c, ts => ∀ used, used.map Lexeme.token = ts → Parser.query stop used = .ok c
  | .clause c, ts | .group c, ts | .comparison c, ts =>
    ∀ used rest, used.map Lexeme.token = ts → next? rest ≠ some .equals →
      outcome (Parser.clause stop (used ++ rest)) = .ok (c, rest)
  | .tail joint cs, ts =>
    ∀ mixed used rest, used.map Lexeme.token = ts →
      next? rest = none ∨ next? rest = some .rightParen →
      outcome (Parser.moreClauses stop joint mixed (used ++ rest)) = .ok (cs, rest)
  | .call c, ts =>
    ∃ us, ts = .word c.name :: .leftParen :: us ∧ IsName c.name ∧
      ∀ start used rest, used.map Lexeme.token = us →
        outcome (Parser.arguments stop (c.name == "sort") start (used ++ rest)) =
          .ok (c.args, rest)
  | .args inSort as, ts =>
    ∀ used rest, used.map Lexeme.token = ts → next? rest = some .rightParen →
      outcome (Parser.args stop inSort (used ++ rest)) = .ok (as, rest)
  | .arg inSort a, ts =>
    ∀ used rest, used.map Lexeme.token = ts →
      next? rest = some .comma ∨ next? rest = some .rightParen →
      outcome (Parser.arg stop inSort (used ++ rest)) = .ok (a, rest)
  | .sortArg direction key, ts =>
    ∀ used rest, used.map Lexeme.token = ts →
      outcome (Parser.arg stop true (used ++ rest)) = .ok (.sortKey direction key, rest)
  | .value v, ts | .array v, ts =>
    ∀ used rest, used.map Lexeme.token = ts →
      outcome (Parser.value stop (used ++ rest)) = .ok (v, rest)
  | .values vs, ts =>
    ∀ used rest, used.map Lexeme.token = ts → next? rest = some .rightParen →
      outcome (Parser.values stop (used ++ rest)) = .ok (vs, rest)

theorem next?_cons (token : Token) (p : Nat) (rest : List Lexeme) :
    next? (⟨token, p⟩ :: rest) = some token :=
  rfl

theorem ne_cons_of_next? {token : Token} {rest : List Lexeme} (h : next? rest ≠ some token)
    (p : Nat) (behind : List Lexeme) : rest ≠ ⟨token, p⟩ :: behind := by
  rintro rfl
  exact h rfl

theorem resolve_of_resolve {raw : String} {v : Value} (h : Literal.resolve raw = .ok v)
    (position : Nat) : Parser.resolve raw position = .ok v := by
  rw [Parser.resolve, h]

theorem checkName_of_isName {name : String} (h : IsName name) (position : Nat) :
    Parser.checkName name position = .ok () := by
  rw [Parser.checkName, if_pos ((isName_iff name).1 h)]

section Steps

variable {stop : Nat} {ts us : List Token}

theorem read_valueWord {raw : String} {v : Value} (h : Literal.resolve raw = .ok v) :
    Read stop (.value v) [.word raw] := by
  intro used rest hused
  obtain ⟨⟨_, p⟩, rfl, rfl⟩ := List.map_eq_singleton_iff.1 hused
  rw [List.singleton_append, Parser.outcome_value_word, resolve_of_resolve h]
  rfl

theorem read_array {vs : List Value} (hvalues : Read stop (.values vs) ts) :
    Read stop (.array (.array vs)) (.leftParen :: (ts ++ [.rightParen])) := by
  intro used rest hused
  obtain ⟨⟨_, p⟩, tail, rfl, rfl, htail⟩ := List.map_eq_cons_iff.1 hused
  obtain ⟨inner, last, rfl, hinner, hlast⟩ := List.map_eq_append_iff.1 htail
  obtain ⟨⟨_, q⟩, rfl, rfl⟩ := List.map_eq_singleton_iff.1 hlast
  rw [List.cons_append, Parser.outcome_value_leftParen, List.append_assoc, List.singleton_append,
    hvalues inner _ hinner (next?_cons ..)]
  simp [Parser.outcome_close_rightParen]

theorem read_valuesOne {v : Value} (hvalue : Read stop (.value v) ts) :
    Read stop (.values [v]) ts := by
  intro used rest hused hnext
  rw [Parser.outcome_values, hvalue used rest hused, ok_bind]
  rcases rest with _ | ⟨⟨token, p⟩, rest⟩
  · rfl
  obtain rfl : token = .rightParen := by simpa [next?] using hnext
  rfl

theorem read_valuesCons {v : Value} {vs : List Value} (hvalue : Read stop (.value v) ts)
    (hvalues : Read stop (.values vs) us) : Read stop (.values (v :: vs)) (ts ++ .comma :: us) := by
  intro used rest hused hnext
  obtain ⟨first, tail, rfl, hfirst, htail⟩ := List.map_eq_append_iff.1 hused
  obtain ⟨⟨_, p⟩, more, rfl, rfl, hmore⟩ := List.map_eq_cons_iff.1 htail
  rw [Parser.outcome_values, List.append_assoc, hvalue first _ hfirst, ok_bind]
  simp [hvalues more rest hmore hnext]

/-- An operand is no name: none of its words is followed by an equals sign. -/
theorem operand_ne_name (h : IsOperand ts) {used rest : List Lexeme}
    (hused : used.map Lexeme.token = ts) (hnext : next? rest ≠ some .equals) (name : String)
    (p q : Nat) (behind : List Lexeme) :
    used ++ rest ≠ ⟨.word name, p⟩ :: ⟨.equals, q⟩ :: behind := by
  cases h with
  | word =>
    obtain ⟨⟨_, p⟩, rfl, rfl⟩ := List.map_eq_singleton_iff.1 hused
    intro heq
    exact ne_cons_of_next? hnext q behind (List.cons.inj heq).2
  | parens =>
    obtain ⟨⟨_, p⟩, tail, rfl, rfl, htail⟩ := List.map_eq_cons_iff.1 hused
    simp

theorem read_equality {field operand : Value} (hderives : Derives (.value field) ts)
    (hderives' : Derives (.value operand) us)
    (hfield : Read stop (.value field) ts) (hoperand : Read stop (.value operand) us) :
    Read stop (.comparison ⟨"eq", [.value field, .value operand]⟩) (ts ++ .equals :: us) := by
  intro used rest hused hnext
  obtain ⟨first, tail, rfl, hfirst, htail⟩ := List.map_eq_append_iff.1 hused
  obtain ⟨⟨_, p⟩, second, rfl, rfl, hsecond⟩ := List.map_eq_cons_iff.1 htail
  rw [List.append_assoc, List.cons_append,
    clause_eq_comparison hderives.isOperand hfirst (next?_cons ..), Parser.outcome_comparison,
    hfield first _ hfirst, ok_bind]
  dsimp only
  split
  · next heq =>
    exact absurd (List.cons.inj heq).2 (operand_ne_name hderives'.isOperand hsecond hnext _ _ _ _)
  · next heq =>
    obtain ⟨_, rfl⟩ := List.cons.inj heq
    rw [hoperand second rest hsecond]
    rfl
  · next heq => exact absurd rfl (heq p _)

theorem read_comparison {name : String} {field operand : Value} (hname : IsName name)
    (hderives : Derives (.value field) ts) (hfield : Read stop (.value field) ts)
    (hoperand : Read stop (.value operand) us) :
    Read stop (.comparison ⟨name, [.value field, .value operand]⟩)
      (ts ++ .equals :: .word name :: .equals :: us) := by
  intro used rest hused hnext
  obtain ⟨first, tail, rfl, hfirst, htail⟩ := List.map_eq_append_iff.1 hused
  obtain ⟨⟨_, p⟩, named, rfl, rfl, hnamed⟩ := List.map_eq_cons_iff.1 htail
  obtain ⟨⟨_, q⟩, closing, rfl, rfl, hclosing⟩ := List.map_eq_cons_iff.1 hnamed
  obtain ⟨⟨_, r⟩, second, rfl, rfl, hsecond⟩ := List.map_eq_cons_iff.1 hclosing
  rw [List.append_assoc, List.cons_append,
    clause_eq_comparison hderives.isOperand hfirst (next?_cons ..), Parser.outcome_comparison,
    hfield first _ hfirst, ok_bind]
  simp [checkName_of_isName hname, hoperand second rest hsecond]

theorem read_call {name : String} {as : List Arg} (hname : IsName name)
    (hderives : Derives (.args (name == "sort") as) ts)
    (hargs : Read stop (.args (name == "sort") as) ts) :
    Read stop (.call ⟨name, as⟩) (.word name :: .leftParen :: (ts ++ [.rightParen])) := by
  refine ⟨_, rfl, hname, fun start used rest hused ↦ ?_⟩
  obtain ⟨inner, last, rfl, hinner, hlast⟩ := List.map_eq_append_iff.1 hused
  obtain ⟨⟨_, q⟩, rfl, rfl⟩ := List.map_eq_singleton_iff.1 hlast
  have hopen (p : Nat) (behind : List Lexeme) :
      inner ++ [⟨.rightParen, q⟩] ++ rest ≠ ⟨.rightParen, p⟩ :: behind := by
    obtain ⟨_, _, ⟨⟩⟩ | ⟨t, us, rfl, ht⟩ := hderives.head_ne_rightParen
    obtain ⟨⟨_, r⟩, tail, rfl, rfl, htail⟩ := List.map_eq_cons_iff.1 hinner
    intro heq
    exact ht (congrArg Lexeme.token (List.cons.inj heq).1)
  rw [Parser.outcome_arguments_of_ne _ _ _ _ hopen, List.append_assoc, List.singleton_append,
    hargs inner _ hinner (next?_cons ..)]
  simp [Parser.outcome_close_rightParen]

theorem read_callEmpty {name : String} (hname : IsName name) :
    Read stop (.call ⟨name, []⟩) [.word name, .leftParen, .rightParen] := by
  refine ⟨_, rfl, hname, fun start used rest hused ↦ ?_⟩
  obtain ⟨⟨_, q⟩, rfl, rfl⟩ := List.map_eq_singleton_iff.1 hused
  exact Parser.outcome_arguments_rightParen ..

theorem read_clauseCall {c : Call} (hcall : Read stop (.call c) ts) :
    Read stop (.clause c) ts := by
  obtain ⟨us, rfl, hname, hargs⟩ := hcall
  intro used rest hused _
  obtain ⟨⟨_, p⟩, opened, rfl, rfl, hopened⟩ := List.map_eq_cons_iff.1 hused
  obtain ⟨⟨_, q⟩, tail, rfl, rfl, htail⟩ := List.map_eq_cons_iff.1 hopened
  rw [List.cons_append, List.cons_append, Parser.outcome_clause_call, checkName_of_isName hname,
    ok_bind, hargs p tail rest htail]
  rfl

theorem splitDirection?_of_not_signed (inSort : Bool) {word : String}
    (h : inSort = true → ¬ IsSigned word) :
    (if inSort then Parser.splitDirection? word else none) = none := by
  cases inSort with
  | false => rfl
  | true => exact not_not.1 fun hne ↦ h rfl (isSigned_iff.2 hne)

theorem IsName.not_isSigned {name : String} (h : IsName name) : ¬ IsSigned name := by
  rintro ⟨direction, key, blanks, _, hsigned, _⟩
  obtain ⟨c, rest, hname, hstart, _⟩ := h
  obtain ⟨rfl, _⟩ := List.cons.inj (hname.symm.trans hsigned)
  revert hstart
  cases direction <;> simp only [StartsName, Direction.sign] <;> decide

theorem read_argCall {inSort : Bool} {name : String} {as : List Arg}
    (hcall : Read stop (.call ⟨name, as⟩) ts) : Read stop (.arg inSort (.call name as)) ts := by
  obtain ⟨us, rfl, hname, hargs⟩ := hcall
  intro used rest hused _
  obtain ⟨⟨_, p⟩, opened, rfl, rfl, hopened⟩ := List.map_eq_cons_iff.1 hused
  obtain ⟨⟨_, q⟩, tail, rfl, rfl, htail⟩ := List.map_eq_cons_iff.1 hopened
  have hplain := splitDirection?_of_not_signed inSort fun _ ↦ hname.not_isSigned
  rw [List.cons_append, List.cons_append, Parser.outcome_arg_call _ _ _ _ _ hplain,
    checkName_of_isName hname, ok_bind, hargs p tail rest htail]
  rfl

theorem read_argValue {inSort : Bool} {v : Value}
    (hunsigned : inSort = true → ∀ word, IsSigned word → ts ≠ [.word word])
    (hderives : Derives (.value v) ts) (hvalue : Read stop (.value v) ts) :
    Read stop (.arg inSort (.value v)) ts := by
  intro used rest hused hnext
  have hresult := hvalue used rest hused
  cases hderives with
  | valueWord =>
    obtain ⟨⟨_, p⟩, rfl, rfl⟩ := List.map_eq_singleton_iff.1 hused
    have hplain := splitDirection?_of_not_signed _ fun hsort hsigned ↦
      hunsigned hsort _ hsigned rfl
    have hparen : next? rest ≠ some .leftParen := by rcases hnext with h | h <;> simp [h]
    refine (Parser.outcome_arg_word _ _ _ _ hplain (ne_cons_of_next? hparen)).trans ?_
    rw [List.singleton_append] at hresult
    rw [hresult]
    rfl
  | valueArray h =>
    cases h with
    | array =>
      obtain ⟨⟨_, p⟩, tail, rfl, rfl, _⟩ := List.map_eq_cons_iff.1 hused
      refine (Parser.outcome_arg_of_not_word _ _ _ (by simp)).trans ?_
      rw [hresult]
      rfl

theorem read_sortWord {direction : Direction} {key signed : String} {v : Value}
    (hsigned : SignedWord direction key signed) (hkey : key ≠ "")
    (hv : Literal.resolve key = .ok v) : Read stop (.sortArg direction v) [.word signed] := by
  intro used rest hused
  obtain ⟨⟨_, p⟩, rfl, rfl⟩ := List.map_eq_singleton_iff.1 hused
  rw [List.singleton_append,
    Parser.outcome_arg_sortKey _ _ _ true (splitDirection?_eq_some_iff.2 hsigned),
    Parser.outcome_sortKey_of_ne _ _ _ _ hkey, resolve_of_resolve hv]
  rfl

theorem read_sortArray {direction : Direction} {signed : String} {v : Value}
    (hsigned : SignedWord direction "" signed) (hderives : Derives (.array v) ts)
    (harray : Read stop (.array v) ts) : Read stop (.sortArg direction v) (.word signed :: ts) := by
  intro used rest hused
  obtain ⟨⟨_, p⟩, tail, rfl, rfl, htail⟩ := List.map_eq_cons_iff.1 hused
  cases hderives with
  | array =>
    obtain ⟨⟨_, q⟩, inner, rfl, rfl, hinner⟩ := List.map_eq_cons_iff.1 htail
    have hread := harray (⟨.leftParen, q⟩ :: inner) rest htail
    rw [List.cons_append,
      Parser.outcome_arg_sortKey _ _ _ true (splitDirection?_eq_some_iff.2 hsigned),
      List.cons_append, Parser.outcome_sortKey_empty _ _ _ _ _ rfl, ← List.cons_append, hread]
    rfl

theorem read_argsOne {inSort : Bool} {a : Arg} (harg : Read stop (.arg inSort a) ts) :
    Read stop (.args inSort [a]) ts := by
  intro used rest hused hnext
  rw [Parser.outcome_args, harg used rest hused (.inr hnext), ok_bind]
  rcases rest with _ | ⟨⟨token, p⟩, rest⟩
  · rfl
  obtain rfl : token = .rightParen := by simpa [next?] using hnext
  rfl

theorem read_argsCons {inSort : Bool} {a : Arg} {as : List Arg}
    (harg : Read stop (.arg inSort a) ts) (hargs : Read stop (.args inSort as) us) :
    Read stop (.args inSort (a :: as)) (ts ++ .comma :: us) := by
  intro used rest hused hnext
  obtain ⟨first, tail, rfl, hfirst, htail⟩ := List.map_eq_append_iff.1 hused
  obtain ⟨⟨_, p⟩, more, rfl, rfl, hmore⟩ := List.map_eq_cons_iff.1 htail
  rw [Parser.outcome_args, List.append_assoc, List.cons_append,
    harg first _ hfirst (.inl (next?_cons ..)), ok_bind]
  simp [hargs more rest hmore hnext]

theorem read_tailNil {joint : Joint} : Read stop (.tail joint []) [] := by
  intro mixed used rest hused hnext
  rw [List.map_eq_nil_iff.1 hused, List.nil_append]
  rcases rest with _ | ⟨⟨token, p⟩, rest⟩
  · exact Parser.outcome_moreClauses_nil ..
  · obtain rfl : token = .rightParen := by simpa [next?] using hnext
    rw [Parser.outcome_moreClauses_cons]
    rfl

/-- What follows a clause within a list of clauses is not an equals sign. -/
theorem next?_tail_ne_equals {joint : Joint} {cs : List Call} (h : Derives (.tail joint cs) us)
    {used rest : List Lexeme} (hused : used.map Lexeme.token = us)
    (hnext : next? rest ≠ some .equals) : next? (used ++ rest) ≠ some .equals := by
  cases h with
  | tailNil => rwa [List.map_eq_nil_iff.1 hused, List.nil_append]
  | tailCons hseparates =>
    obtain ⟨⟨_, p⟩, tail, rfl, rfl, _⟩ := List.map_eq_cons_iff.1 hused
    rw [List.cons_append, next?_cons]
    cases hseparates <;> simp

theorem read_tailCons {joint : Joint} {separator : Token} {c : Call} {cs : List Call}
    (hseparates : Separates joint separator) (hderives : Derives (.tail joint cs) us)
    (hclause : Read stop (.clause c) ts) (htail : Read stop (.tail joint cs) us) :
    Read stop (.tail joint (c :: cs)) (separator :: (ts ++ us)) := by
  intro mixed used rest hused hnext
  obtain ⟨⟨_, p⟩, more, rfl, rfl, hmore⟩ := List.map_eq_cons_iff.1 hused
  obtain ⟨first, second, rfl, hfirst, hsecond⟩ := List.map_eq_append_iff.1 hmore
  have hequals : next? rest ≠ some .equals := by rcases hnext with h | h <;> simp [h]
  rw [List.cons_append, Parser.outcome_moreClauses_cons, separates_iff.1 hseparates]
  simp only [if_true]
  rw [List.append_assoc, hclause first _ hfirst (next?_tail_ne_equals hderives hsecond hequals),
    ok_bind, htail mixed second rest hsecond hnext]
  rfl

/-- The joint of a group is read off the first separator. Where there is none, the group is its only
clause, however it would be joined. -/
theorem jointOf_tail {joint : Joint} {cs : List Call} (hderives : Derives (.tail joint cs) us)
    (htail : Read stop (.tail joint cs) us) {used rest : List Lexeme}
    (hused : used.map Lexeme.token = us) (hnext : next? rest = some .rightParen)
    (mixed : ParseError.Cause) (c : Call) :
    outcome (Parser.moreClauses stop (Parser.jointOf (used ++ rest)) mixed (used ++ rest)) =
        .ok (cs, rest) ∧
      (Parser.jointOf (used ++ rest)).join (c :: cs) = joint.join (c :: cs) := by
  cases hderives with
  | tailNil =>
    refine ⟨read_tailNil mixed used rest hused (.inr hnext), ?_⟩
    cases joint <;> cases Parser.jointOf (used ++ rest) <;> rfl
  | tailCons hseparates =>
    obtain ⟨⟨token, p⟩, more, rfl, rfl, _⟩ := List.map_eq_cons_iff.1 hused
    have hjoint : Parser.jointOf (⟨token, p⟩ :: more ++ rest) = joint := by
      simp [Parser.jointOf, separates_iff.1 hseparates]
    rw [hjoint]
    exact ⟨htail mixed _ rest hused (.inr hnext), rfl⟩

theorem read_group {joint : Joint} {c : Call} {cs : List Call} (hderives : Derives (.clause c) ts)
    (hderives' : Derives (.tail joint cs) us) (hclause : Read stop (.clause c) ts)
    (htail : Read stop (.tail joint cs) us) :
    Read stop (.group (joint.join (c :: cs))) (.leftParen :: (ts ++ us ++ [.rightParen])) := by
  intro used rest hused hnext
  obtain ⟨⟨_, p⟩, inner, rfl, rfl, hinner⟩ := List.map_eq_cons_iff.1 hused
  obtain ⟨clauses, last, rfl, hclauses, hlast⟩ := List.map_eq_append_iff.1 hinner
  obtain ⟨⟨_, q⟩, rfl, rfl⟩ := List.map_eq_singleton_iff.1 hlast
  obtain ⟨first, second, rfl, hfirst, hsecond⟩ := List.map_eq_append_iff.1 hclauses
  have hgroup : closesBeforeEquals 1 (first ++ second ++ ⟨.rightParen, q⟩ :: rest) = false := by
    have hinside := hderives.nested.append hderives'.nested
    rw [closesBeforeEquals_parens hinside.balanced hclauses]
    simpa using hnext
  obtain ⟨hmore, hjoin⟩ := jointOf_tail hderives' htail hsecond (next?_cons .rightParen q rest)
    .mixedGroup c
  rw [List.cons_append, List.append_assoc, List.singleton_append,
    Parser.outcome_clause_group _ _ _ hgroup, List.append_assoc,
    hclause first _ hfirst (next?_tail_ne_equals hderives' hsecond (by simp [next?_cons])),
    ok_bind]
  dsimp only
  rw [hmore, ok_bind]
  dsimp only
  rw [Parser.outcome_close_rightParen, ok_bind, hjoin]
  rfl

theorem read_query {c : Call} {cs : List Call} (hderives : Derives (.clause c) ts)
    (hderives' : Derives (.tail .conjunction cs) us) (hclause : Read stop (.clause c) ts)
    (htail : Read stop (.tail .conjunction cs) us) :
    Read stop (.query (Call.conjunction (c :: cs))) (ts ++ us) := by
  intro used hused
  obtain ⟨first, second, rfl, hfirst, hsecond⟩ := List.map_eq_append_iff.1 hused
  have hne : first ++ second ≠ [] := by
    obtain ⟨_, _, ⟨⟩⟩ | ⟨t, us, rfl, _⟩ := hderives.head_ne_rightParen
    obtain ⟨_, _, rfl, _⟩ := List.map_eq_cons_iff.1 hfirst
    simp
  have hequals : next? second ≠ some .equals := by
    have hnil : next? [] ≠ some .equals := by simp [next?]
    simpa using next?_tail_ne_equals hderives' hsecond hnil
  have hmore := htail .bareOr second [] hsecond (.inl rfl)
  rw [List.append_nil] at hmore
  rw [Parser.query_of_ne_nil _ _ hne, hclause first second hfirst hequals, ok_bind]
  dsimp only
  rw [hmore]
  rfl

end Steps

/-- What the tokens derive is what the readers find. -/
theorem Derives.read {phrase : Phrase} {ts : List Token} (h : Derives phrase ts) (stop : Nat) :
    Read stop phrase ts := by
  induction h with
  | query h h' hjoins ih ih' =>
    rw [joins_iff.1 hjoins]
    exact read_query h h' ih ih'
  | clauseGroup _ ih => exact ih
  | clauseCall _ ih => exact read_clauseCall ih
  | clauseComparison _ ih => exact ih
  | tailNil => exact read_tailNil
  | tailCons hseparates _ h' ih ih' => exact read_tailCons hseparates h' ih ih'
  | group h h' hjoins ih ih' =>
    rw [joins_iff.1 hjoins]
    exact read_group h h' ih ih'
  | callEmpty hname => exact read_callEmpty hname
  | call hname h ih => exact read_call hname h ih
  | equality h h' ih ih' => exact read_equality h h' ih ih'
  | comparison hname h _ ih ih' => exact read_comparison hname h ih ih'
  | argsOne _ ih => exact read_argsOne ih
  | argsCons _ _ ih ih' => exact read_argsCons ih ih'
  | argCall _ ih => exact read_argCall ih
  | argSort _ ih => exact fun used rest hused _ ↦ ih used rest hused
  | argValue hunsigned h ih => exact read_argValue hunsigned h ih
  | sortWord hsigned hkey hv => exact read_sortWord hsigned hkey hv
  | sortArray hsigned h ih => exact read_sortArray hsigned h ih
  | valueArray _ ih => exact ih
  | valueWord hv => exact read_valueWord hv
  | array _ ih => exact read_array ih
  | valuesOne _ ih => exact read_valuesOne ih
  | valuesCons _ _ ih ih' => exact read_valuesCons ih ih'

theorem query_eq_ok_iff {stop : Nat} {ls : List Lexeme} {c : Call} :
    Parser.query stop ls = .ok c ↔ Derives (.query c) (ls.map Lexeme.token) :=
  ⟨derives_of_query, fun h ↦ h.read stop ls rfl⟩

end ResourceQuery.Grammar

namespace ResourceQuery

open Grammar

/-- A text is accepted exactly if its tokens derive a query, and then the result is the call tree
that they derive. -/
theorem parse_eq_ok_iff_derives (text : String) (c : Call) :
    parse text = .ok c ↔
      Derives (.query c) ((Lexeme.ofText text).map Lexeme.token) := by
  rw [← @query_eq_ok_iff text.length, parse]
  cases Parser.query text.length (Lexeme.ofText text) <;> simp

end ResourceQuery
