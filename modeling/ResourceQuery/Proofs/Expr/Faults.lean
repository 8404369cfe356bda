import ResourceQuery.Proofs.Expr.Soundness

/-!
What the readers find fault with. A reader that fails gives a cause and a position, and both belong
to lexemes among those that it was given. A parenthesis counts as missing only at the end of the
text, where everything behind the open one has been read, so that all parentheses there close one
another. The same holds of what stands in front of a fault at the top of a query.
-/

set_option autoImplicit false

open ResourceQuery.Parser (Fault Joint outcome)

namespace ResourceQuery.Grammar

/-- The lexemes that open what is closed by a parenthesis: another parenthesis, or a call. -/
inductive Opens (start : Nat) : List Lexeme → Prop
  | paren : Opens start [⟨.leftParen, start⟩]
  | call {name : String} {paren : Nat} :
      IsName name → Opens start [⟨.word name, start⟩, ⟨.leftParen, paren⟩]

/-- The fault is with lexemes in the list, or with its end where the text should have gone on. -/
inductive Blames (stop : Nat) : List Lexeme → Fault → Prop
  | unexpected (before : List Lexeme) {behind : List Lexeme} {expected : Expected} :
      Blames stop (before ++ behind) (Parser.unexpected stop expected behind)
  | literal (before : List Lexeme) {behind : List Lexeme} {raw : String} {position : Nat}
      {e : LiteralError} :
      Literal.resolve raw = .error e →
      Blames stop (before ++ ⟨.word raw, position⟩ :: behind) ⟨.literal e, position⟩
  | sortKey (before : List Lexeme) {behind : List Lexeme} {direction : Direction}
      {key signed : String} {position : Nat} {e : LiteralError} :
      SignedWord direction key signed → Literal.resolve key = .error e →
      Blames stop (before ++ ⟨.word signed, position⟩ :: behind) ⟨.literal e, position + 1⟩
  | name (before : List Lexeme) {behind : List Lexeme} {name : String} {position : Nat} :
      ¬ IsName name →
      Blames stop (before ++ ⟨.word name, position⟩ :: behind) ⟨.invalidName name, position⟩
  | mixedGroup (before : List Lexeme) {behind : List Lexeme} {lexeme : Lexeme} {joint : Joint} :
      Separates joint lexeme.token →
      Blames stop (before ++ lexeme :: behind) ⟨.mixedGroup, lexeme.position⟩
  | unclosed (before : List Lexeme) {opening inside : List Lexeme} {start : Nat} :
      Opens start opening → Nested (inside.map Lexeme.token) →
      Blames stop (before ++ (opening ++ inside)) ⟨.unclosed, start⟩

/-- A reader fails only with a fault that is with the lexemes of the list. -/
abbrev BlamesOnly (stop : Nat) (ls : List Lexeme) {α : Type} (x : Except Fault α) : Prop :=
  FailsOnly (Blames stop ls) x

theorem Blames.append_left {stop : Nat} {ls : List Lexeme} {fault : Fault}
    (h : Blames stop ls fault) (front : List Lexeme) : Blames stop (front ++ ls) fault := by
  cases h <;> rw [← List.append_assoc]
  case unexpected => exact .unexpected _
  case literal he => exact .literal _ he
  case sortKey hsigned he => exact .sortKey _ hsigned he
  case name hname => exact .name _ hname
  case mixedGroup hseparates => exact .mixedGroup _ hseparates
  case unclosed hopens hinside => exact .unclosed _ hopens hinside

section Values

variable {stop : Nat} {ls : List Lexeme} {α : Type} {x : Except Fault α}

theorem BlamesOnly.append_left (h : BlamesOnly stop ls x) (front : List Lexeme) :
    BlamesOnly stop (front ++ ls) x :=
  h.mono fun _ hfault ↦ hfault.append_left front

theorem BlamesOnly.cons (h : BlamesOnly stop ls x) (lexeme : Lexeme) :
    BlamesOnly stop (lexeme :: ls) x :=
  BlamesOnly.append_left h [lexeme]

theorem blamesOnly_unexpected {expected : Expected} (before : List Lexeme)
    (h : x = .error (Parser.unexpected stop expected ls)) : BlamesOnly stop (before ++ ls) x := by
  rw [h]
  exact failsOnly_error_iff.2 (.unexpected before)

theorem blamesOnly_resolve (raw : String) (position : Nat) (behind : List Lexeme) :
    BlamesOnly stop (⟨.word raw, position⟩ :: behind) (Parser.resolve raw position) := by
  unfold Parser.resolve
  split
  · exact failsOnly_ok _
  · next he => exact failsOnly_error_iff.2 (.literal [] he)

theorem blamesOnly_checkName (name : String) (position : Nat) (behind : List Lexeme) :
    BlamesOnly stop (⟨.word name, position⟩ :: behind) (Parser.checkName name position) := by
  unfold Parser.checkName
  split
  · exact failsOnly_ok _
  · next hname => exact failsOnly_error_iff.2 (.name [] (mt (isName_iff name).1 hname))

theorem blamesOnly_close {start : Nat} {opening inside : List Lexeme} (hopens : Opens start opening)
    (hinside : Nested (inside.map Lexeme.token)) (ls : List Lexeme) :
    BlamesOnly stop (opening ++ (inside ++ ls)) (outcome (Parser.close stop start ls)) := by
  rcases ls with _ | ⟨⟨token, position⟩, rest⟩
  · rw [Parser.outcome_close_nil, List.append_nil]
    exact failsOnly_error_iff.2 (.unclosed [] hopens hinside)
  · rw [← List.append_assoc]
    cases token with
    | rightParen => exact failsOnly_ok _
    | _ => exact failsOnly_error_iff.2 (.unexpected _)

theorem blamesOnly_array {start : Nat}
    (hvalues : BlamesOnly stop ls (outcome (Parser.values stop ls))) :
    BlamesOnly stop (⟨.leftParen, start⟩ :: ls)
      (outcome (Parser.value stop (⟨.leftParen, start⟩ :: ls))) := by
  rw [Parser.outcome_value_leftParen]
  refine (BlamesOnly.cons hvalues _).bind_of_ok ?_
  rintro ⟨items, behind⟩ hitems
  obtain ⟨used, rfl, hused⟩ := (found_value_values stop ls).2 items behind hitems
  exact (blamesOnly_close .paren hused.nested behind).bind fun _ ↦ failsOnly_pure _

theorem blamesOnly_value
    (hvalues : ∀ ls', ls'.length < ls.length →
      BlamesOnly stop ls' (outcome (Parser.values stop ls'))) :
    BlamesOnly stop ls (outcome (Parser.value stop ls)) := by
  rcases ls with _ | ⟨⟨token, position⟩, tail⟩
  · exact blamesOnly_unexpected [] (Parser.outcome_value_of_other _ (by simp) (by simp))
  cases token with
  | leftParen => exact blamesOnly_array (hvalues tail (Nat.lt_succ_self _))
  | word raw =>
    rw [Parser.outcome_value_word]
    exact (blamesOnly_resolve raw position tail).bind fun _ ↦ failsOnly_pure _
  | _ => exact blamesOnly_unexpected [] (Parser.outcome_value_of_other _ (by simp) (by simp))

theorem blamesOnly_values (hvalue : BlamesOnly stop ls (outcome (Parser.value stop ls)))
    (hvalues : ∀ ls', ls'.length < ls.length →
      BlamesOnly stop ls' (outcome (Parser.values stop ls'))) :
    BlamesOnly stop ls (outcome (Parser.values stop ls)) := by
  rw [Parser.outcome_values]
  refine hvalue.bind_of_ok ?_
  rintro ⟨first, behind⟩ hfirst
  obtain ⟨used, rfl, _⟩ := (found_value_values stop ls).1 first behind hfirst
  dsimp only
  split
  · next position tail =>
    have hmore := hvalues tail (by simp only [List.length_append, List.length_cons]; omega)
    exact ((hmore.cons _).append_left used).bind fun _ ↦ failsOnly_pure _
  · exact failsOnly_pure _

theorem blamesOnly_value_values (stop : Nat) (ls : List Lexeme) :
    BlamesOnly stop ls (outcome (Parser.value stop ls)) ∧
      BlamesOnly stop ls (outcome (Parser.values stop ls)) := by
  have hshorter (ls' : List Lexeme) (_hlt : ls'.length < ls.length) :=
    (blamesOnly_value_values stop ls').2
  exact ⟨blamesOnly_value hshorter, blamesOnly_values (blamesOnly_value hshorter) hshorter⟩
termination_by ls.length

theorem blamesOnly_comparison (stop : Nat) (ls : List Lexeme) :
    BlamesOnly stop ls (outcome (Parser.comparison stop ls)) := by
  rw [Parser.outcome_comparison]
  refine (blamesOnly_value_values stop ls).1.bind_of_ok ?_
  rintro ⟨field, behind⟩ hfield
  obtain ⟨used, rfl, _⟩ := (found_value_values stop ls).1 field behind hfield
  refine BlamesOnly.append_left ?_ used
  dsimp only
  split
  · next p name position q tail =>
    refine (BlamesOnly.cons (blamesOnly_checkName name position _) _).bind fun _ ↦ ?_
    have hoperand := (blamesOnly_value_values stop tail).1
    exact (((hoperand.cons _).cons _).cons _).bind fun _ ↦ failsOnly_pure _
  · next p tail _ =>
    exact ((blamesOnly_value_values stop tail).1.cons _).bind fun _ ↦ failsOnly_pure _
  · exact failsOnly_error_iff.2 (.unexpected [])

theorem blamesOnly_sortKey {direction : Direction} {key signed : String} {position : Nat}
    (hsigned : SignedWord direction key signed) (ls : List Lexeme) :
    BlamesOnly stop (⟨.word signed, position⟩ :: ls)
      (outcome (Parser.sortKey stop key position ls)) := by
  by_cases hkey : key = ""
  · subst hkey
    rcases ls with _ | ⟨⟨token, p⟩, tail⟩
    · exact blamesOnly_unexpected [⟨.word signed, position⟩] rfl
    cases token with
    | leftParen =>
      rw [Parser.outcome_sortKey_empty _ _ _ _ _ rfl]
      exact (blamesOnly_value_values stop _).1.cons _
    | _ => exact blamesOnly_unexpected [⟨.word signed, position⟩] rfl
  · rw [Parser.outcome_sortKey_of_ne _ _ _ _ hkey]
    refine FailsOnly.bind ?_ fun _ ↦ failsOnly_pure _
    unfold Parser.resolve
    split
    · exact failsOnly_ok _
    · next he => exact failsOnly_error_iff.2 (.sortKey [] hsigned he)

end Values

/-- The fault is with a separator that joins otherwise than the clauses in front of it. -/
inductive Mixes (joint : Joint) (mixed : ParseError.Cause) : List Lexeme → Fault → Prop
  | intro (before : List Lexeme) {behind : List Lexeme} {lexeme : Lexeme} {other : Joint} :
      Nested (before.map Lexeme.token) → Separates other lexeme.token → other ≠ joint →
      Mixes joint mixed (before ++ lexeme :: behind) ⟨mixed, lexeme.position⟩

theorem nested_append {first second : List Lexeme} (hfirst : Nested (first.map Lexeme.token))
    (hsecond : Nested (second.map Lexeme.token)) :
    Nested ((first ++ second).map Lexeme.token) := by
  rw [List.map_append]
  exact hfirst.append hsecond

theorem Mixes.append_left {joint : Joint} {mixed : ParseError.Cause} {ls : List Lexeme}
    {fault : Fault} (h : Mixes joint mixed ls fault) {front : List Lexeme}
    (hfront : Nested (front.map Lexeme.token)) : Mixes joint mixed (front ++ ls) fault := by
  obtain ⟨_, hbefore, hseparates, hother⟩ := h
  rw [← List.append_assoc]
  exact .intro _ (nested_append hfront hbefore) hseparates hother

/-- What is proved of the readers of clauses and arguments together, for lists of one length. -/
structure Blaming (stop : Nat) (ls : List Lexeme) : Prop where
  clause : BlamesOnly stop ls (outcome (Parser.clause stop ls))
  moreClauses : ∀ joint mixed,
    FailsOnly (fun fault ↦ Blames stop ls fault ∨ Mixes joint mixed ls fault)
      (outcome (Parser.moreClauses stop joint mixed ls))
  arguments : ∀ inSort start opening, Opens start opening →
    BlamesOnly stop (opening ++ ls) (outcome (Parser.arguments stop inSort start ls))
  args : ∀ inSort, BlamesOnly stop ls (outcome (Parser.args stop inSort ls))

section Clauses

variable {stop : Nat} {ls : List Lexeme}

theorem blamesOnly_arguments {inSort : Bool} {start : Nat} {opening : List Lexeme}
    (hargs : BlamesOnly stop ls (outcome (Parser.args stop inSort ls)))
    (hopens : Opens start opening) :
    BlamesOnly stop (opening ++ ls) (outcome (Parser.arguments stop inSort start ls)) := by
  by_cases hclosed : ∃ p behind, ls = ⟨.rightParen, p⟩ :: behind
  · obtain ⟨p, behind, rfl⟩ := hclosed
    rw [Parser.outcome_arguments_rightParen]
    exact failsOnly_ok _
  · simp only [not_exists] at hclosed
    rw [Parser.outcome_arguments_of_ne _ _ _ _ hclosed]
    refine (BlamesOnly.append_left hargs opening).bind_of_ok ?_
    rintro ⟨as, behind⟩ has
    obtain ⟨used, rfl, hused⟩ := (sound stop ls).args inSort as behind has
    exact (blamesOnly_close hopens hused.nested behind).bind fun _ ↦ failsOnly_pure _

/-- The reader of a call checks the name and reads the arguments. What it makes of them does not
fail. -/
theorem blamesOnly_call {α : Type} {inSort : Bool} {name : String} {position p : Nat}
    {result : List Arg × List Lexeme → Except Fault α}
    (harguments : ∀ start opening, Opens start opening →
      BlamesOnly stop (opening ++ ls) (outcome (Parser.arguments stop inSort start ls)))
    (hresult : ∀ found, FailsOnly (fun _ ↦ False) (result found)) :
    BlamesOnly stop (⟨.word name, position⟩ :: ⟨.leftParen, p⟩ :: ls) (do
      Parser.checkName name position
      outcome (Parser.arguments stop inSort position ls) >>= result) := by
  refine (blamesOnly_checkName name position _).bind_of_ok ?_
  rintro ⟨⟩ hname
  have hopens : Opens position [⟨.word name, position⟩, ⟨.leftParen, p⟩] :=
    .call (checkName_eq_ok_iff.1 hname)
  exact (harguments position _ hopens).bind fun found ↦ (hresult found).mono fun _ ↦ False.elim

theorem blamesOnly_arg {inSort : Bool} (ih : ∀ ls', ls'.length < ls.length → Blaming stop ls') :
    BlamesOnly stop ls (outcome (Parser.arg stop inSort ls)) := by
  by_cases hword : ∃ word p tail, ls = ⟨.word word, p⟩ :: tail
  · obtain ⟨word, position, tail, rfl⟩ := hword
    rcases hsplit : (if inSort then Parser.splitDirection? word else none) with _ | ⟨direction, key⟩
    · by_cases hparen : ∃ p behind, tail = ⟨.leftParen, p⟩ :: behind
      · obtain ⟨p, behind, rfl⟩ := hparen
        rw [Parser.outcome_arg_call _ _ _ _ _ hsplit]
        have hbehind := ih behind (by simp only [List.length_cons]; omega)
        exact blamesOnly_call (hbehind.arguments (word == "sort")) fun _ ↦ failsOnly_pure _
      · simp only [not_exists] at hparen
        rw [Parser.outcome_arg_word _ _ _ _ hsplit hparen]
        exact (blamesOnly_value_values stop _).1.bind fun _ ↦ failsOnly_pure _
    · rw [Parser.outcome_arg_sortKey _ _ _ _ hsplit]
      cases inSort with
      | false => cases hsplit
      | true =>
        have hsigned := splitDirection?_eq_some_iff.1 hsplit
        exact (blamesOnly_sortKey hsigned tail).bind fun _ ↦ failsOnly_pure _
  · simp only [not_exists] at hword
    rw [Parser.outcome_arg_of_not_word _ _ _ hword]
    exact (blamesOnly_value_values stop ls).1.bind fun _ ↦ failsOnly_pure _

theorem blamesOnly_args {inSort : Bool} (ih : ∀ ls', ls'.length < ls.length → Blaming stop ls') :
    BlamesOnly stop ls (outcome (Parser.args stop inSort ls)) := by
  rw [Parser.outcome_args]
  refine (blamesOnly_arg ih).bind_of_ok ?_
  rintro ⟨first, behind⟩ hfirst
  obtain ⟨used, rfl, _⟩ := found_arg (fun ls' _ ↦ (sound stop ls').arguments) hfirst
  dsimp only
  split
  · next position tail =>
    have htail := ih tail (by simp only [List.length_append, List.length_cons]; omega)
    exact (((htail.args inSort).cons _).append_left used).bind fun _ ↦ failsOnly_pure _
  · exact failsOnly_pure _

/-- A group, behind its opening parenthesis. -/
theorem blamesOnly_group {start : Nat} (ih : ∀ ls', ls'.length ≤ ls.length → Blaming stop ls') :
    BlamesOnly stop (⟨.leftParen, start⟩ :: ls) (do
      let (first, behind) ← outcome (Parser.clause stop ls)
      let joint := Parser.jointOf behind
      let (more, behind) ← outcome (Parser.moreClauses stop joint .mixedGroup behind)
      let (_, behind) ← outcome (Parser.close stop start behind)
      return (joint.join (first :: more), behind)) := by
  refine (BlamesOnly.cons (ih ls le_rfl).clause _).bind_of_ok ?_
  rintro ⟨first, behind⟩ hfirst
  obtain ⟨used, rfl, hused⟩ := (sound stop ls).clause first behind hfirst
  dsimp only
  have hmore := (ih behind (by simp)).moreClauses (Parser.jointOf behind) .mixedGroup
  have hblames (fault : Fault)
      (h : Blames stop behind fault ∨ Mixes (Parser.jointOf behind) .mixedGroup behind fault) :
      Blames stop (⟨.leftParen, start⟩ :: (used ++ behind)) fault := by
    refine Blames.append_left (Blames.append_left ?_ used) [⟨.leftParen, start⟩]
    obtain h | ⟨_, _, hseparates, _⟩ := h
    · exact h
    · exact .mixedGroup _ hseparates
  refine (hmore.mono hblames).bind_of_ok ?_
  rintro ⟨more, last⟩ hfound
  obtain ⟨used', rfl, hused'⟩ := (sound stop behind).moreClauses _ _ more last hfound
  have hinside := nested_append hused.nested hused'.nested
  rw [← List.append_assoc]
  exact (blamesOnly_close .paren hinside last).bind fun _ ↦ failsOnly_pure _

theorem blamesOnly_clause (ih : ∀ ls', ls'.length < ls.length → Blaming stop ls') :
    BlamesOnly stop ls (outcome (Parser.clause stop ls)) := by
  rcases ls with _ | ⟨⟨token, position⟩, tail⟩
  · exact blamesOnly_unexpected [] (Parser.outcome_clause_of_other _ _ (by simp) (by simp))
  cases token with
  | leftParen =>
    cases htuple : Parser.closesBeforeEquals 1 tail with
    | true =>
      rw [Parser.outcome_clause_tuple _ _ _ htuple]
      exact blamesOnly_comparison stop _
    | false =>
      rw [Parser.outcome_clause_group _ _ _ htuple]
      exact blamesOnly_group fun ls' hle ↦ ih ls' (Nat.lt_succ_of_le hle)
  | word word =>
    by_cases hparen : ∃ p behind, tail = ⟨.leftParen, p⟩ :: behind
    · obtain ⟨p, behind, rfl⟩ := hparen
      rw [Parser.outcome_clause_call]
      have hbehind := ih behind (by simp only [List.length_cons]; omega)
      exact blamesOnly_call (hbehind.arguments (word == "sort")) fun _ ↦ failsOnly_pure _
    · by_cases hequals : ∃ p behind, tail = ⟨.equals, p⟩ :: behind
      · obtain ⟨p, behind, rfl⟩ := hequals
        rw [Parser.outcome_clause_comparison]
        exact blamesOnly_comparison stop _
      · simp only [not_exists] at hparen hequals
        exact blamesOnly_unexpected [⟨.word word, position⟩]
          (Parser.outcome_clause_word _ _ _ _ hparen hequals)
  | _ => exact blamesOnly_unexpected [] (Parser.outcome_clause_of_other _ _ (by simp) (by simp))

theorem blamesOnly_moreClauses (joint : Joint) (mixed : ParseError.Cause)
    (ih : ∀ ls', ls'.length < ls.length → Blaming stop ls') :
    FailsOnly (fun fault ↦ Blames stop ls fault ∨ Mixes joint mixed ls fault)
      (outcome (Parser.moreClauses stop joint mixed ls)) := by
  rcases ls with _ | ⟨lexeme, tail⟩
  · rw [Parser.outcome_moreClauses_nil]
    exact failsOnly_ok _
  rw [Parser.outcome_moreClauses_cons]
  split
  · exact failsOnly_ok _
  · next other hother =>
    have hseparates := separates_iff.2 hother
    split
    · have hfirst := BlamesOnly.cons (ih tail (Nat.lt_succ_self _)).clause lexeme
      refine (hfirst.mono fun _ ↦ .inl).bind_of_ok ?_
      rintro ⟨first, behind⟩ hfound
      obtain ⟨used, rfl, hused⟩ := (sound stop tail).clause first behind hfound
      have hbehind := ih behind (by simp only [List.length_cons, List.length_append]; omega)
      have hmore := hbehind.moreClauses joint mixed
      refine (hmore.mono fun fault hfault ↦ ?_).bind fun _ ↦ failsOnly_pure _
      have hfront : Nested ((lexeme :: used).map Lexeme.token) :=
        hused.nested.cons hseparates.ne_paren.1 hseparates.ne_paren.2
      exact hfault.imp (·.append_left (lexeme :: used)) (·.append_left hfront)
    · next hne => exact failsOnly_error_iff.2 (.inr (.intro [] .nil hseparates hne))

end Clauses

theorem blaming (stop : Nat) (ls : List Lexeme) : Blaming stop ls := by
  have ih (ls' : List Lexeme) (_hlt : ls'.length < ls.length) := blaming stop ls'
  exact {
    clause := blamesOnly_clause ih
    moreClauses := fun joint mixed ↦ blamesOnly_moreClauses joint mixed ih
    arguments := fun inSort start opening ↦ blamesOnly_arguments (blamesOnly_args ih)
    args := fun inSort ↦ blamesOnly_args ih }
termination_by ls.length

/-- Why a list of lexemes is no query. The parentheses in front of a lexeme that cannot stand at the
top close one another. -/
inductive Rejects (stop : Nat) : List Lexeme → Fault → Prop
  | empty : Rejects stop [] ⟨.empty, stop⟩
  | within {ls : List Lexeme} {fault : Fault} : Blames stop ls fault → Rejects stop ls fault
  | bareOr {before behind : List Lexeme} {position : Nat} :
      Nested (before.map Lexeme.token) →
      Rejects stop (before ++ ⟨.pipe, position⟩ :: behind) ⟨.bareOr, position⟩
  | strayClose {before behind : List Lexeme} {position : Nat} :
      Nested (before.map Lexeme.token) →
      Rejects stop (before ++ ⟨.rightParen, position⟩ :: behind) ⟨.strayClose, position⟩

theorem Mixes.rejects {stop : Nat} {ls : List Lexeme} {fault : Fault}
    (h : Mixes .conjunction .bareOr ls fault) : Rejects stop ls fault := by
  obtain @⟨before, _, ⟨token, position⟩, other, hbefore, hseparates, hother⟩ := h
  cases hseparates with
  | pipe => exact .bareOr hbefore
  | ampersand | comma => exact absurd rfl hother

theorem rejects_of_query (stop : Nat) (ls : List Lexeme) :
    FailsOnly (Rejects stop ls) (Parser.query stop ls) := by
  rcases hls : ls with _ | ⟨lexeme, tail⟩
  · rw [Parser.query_nil]
    exact failsOnly_error_iff.2 .empty
  rw [← hls, Parser.query_of_ne_nil _ _ (by simp [hls])]
  refine ((blaming stop ls).clause.mono fun _ ↦ .within).bind_of_ok ?_
  rintro ⟨c, behind⟩ hc
  obtain ⟨used, rfl, hused⟩ := (sound stop ls).clause c behind hc
  have hmore := (blaming stop behind).moreClauses .conjunction .bareOr
  have hrejects (fault : Fault)
      (h : Blames stop behind fault ∨ Mixes .conjunction .bareOr behind fault) :
      Rejects stop (used ++ behind) fault := by
    obtain h | h := h
    · exact .within (h.append_left used)
    · exact (h.append_left hused.nested).rejects
  refine (hmore.mono hrejects).bind_of_ok ?_
  rintro ⟨cs, last⟩ hcs
  obtain ⟨used', rfl, hused'⟩ := (sound stop behind).moreClauses _ _ cs last hcs
  have hbefore := nested_append hused.nested hused'.nested
  rw [← List.append_assoc]
  dsimp only
  split
  · exact failsOnly_pure _
  · exact failsOnly_error_iff.2 (.strayClose hbefore)
  · exact failsOnly_error_iff.2 (.within (.unexpected _))

end ResourceQuery.Grammar
