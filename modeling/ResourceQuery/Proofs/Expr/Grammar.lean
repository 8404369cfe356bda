import Mathlib.Data.List.TakeWhile
import Mathlib.Tactic.Tauto
import ResourceQuery.Expr.Parser

/-!
The grammar of query texts as a relation between lists of tokens and what they stand for. There is
one rule for each alternative of

    query      := clause (('&' | ',') clause)*
    clause     := group | call | comparison
    group      := '(' clause (('|' clause)* | (('&' | ',') clause)*) ')'
    call       := NAME '(' [arg (',' arg)*] ')'
    comparison := value '=' [NAME '='] value
    arg        := call | sortarg | value
    sortarg    := ('+' | '-') (WORD | array)
    value      := array | WORD
    array      := '(' value (',' value)* ')'

The relation knows nothing of the order in which a reader looks at the tokens, and its rules name
the trees that they conclude with. A parenthesis that opens a group and one that opens a tuple of
names are told apart by the rules alone.
-/

set_option autoImplicit false

open ResourceQuery.Parser (Joint)

namespace ResourceQuery.Grammar

def StartsName (c : Char) : Prop :=
  ('A' ≤ c ∧ c ≤ 'Z') ∨ ('a' ≤ c ∧ c ≤ 'z') ∨ c = '_'

def ContinuesName (c : Char) : Prop :=
  StartsName c ∨ ('0' ≤ c ∧ c ≤ '9')

/-- The names of operators: a letter or an underscore, then letters, digits and underscores. -/
def IsName (text : String) : Prop :=
  ∃ c rest, text.toList = c :: rest ∧ StartsName c ∧ ∀ d ∈ rest, ContinuesName d

/-- A word that is a sign and a key, with blanks between them that do not count. The key is empty in
a sign that stands alone. -/
def SignedWord (direction : Direction) (key word : String) : Prop :=
  ∃ blanks, (∀ c ∈ blanks, Text.isBlank c = true) ∧
    word.toList = direction.sign :: (blanks ++ key.toList) ∧
    ∀ c ∈ key.toList.head?, Text.isBlank c = false

def IsSigned (word : String) : Prop :=
  ∃ direction key, SignedWord direction key word

/-- The tokens that may stand between clauses that are joined in one way. -/
inductive Separates : Joint → Token → Prop
  | pipe : Separates .disjunction .pipe
  | ampersand : Separates .conjunction .ampersand
  | comma : Separates .conjunction .comma

/-- What clauses that are joined in one way stand for. A single clause stands for itself, and more
of them for a call that has all of them as its arguments. -/
inductive Joins : Joint → List Call → Call → Prop
  | single {joint : Joint} (c : Call) : Joins joint [c] c
  | and (c d : Call) (cs : List Call) :
      Joins .conjunction (c :: d :: cs) ⟨"and", (c :: d :: cs).map fun e ↦ .call e.name e.args⟩
  | or (c d : Call) (cs : List Call) :
      Joins .disjunction (c :: d :: cs) ⟨"or", (c :: d :: cs).map fun e ↦ .call e.name e.args⟩

theorem startsName_iff (c : Char) : StartsName c ↔ (c.isAlpha || c == '_') = true := by
  have halpha : c.isAlpha = (c.isUpper || c.isLower) := rfl
  have hupper : c.isUpper = decide ('A'.val ≤ c.val ∧ c.val ≤ 'Z'.val) := rfl
  have hlower : c.isLower = (decide ('a'.val ≤ c.val) && decide (c.val ≤ 'z'.val)) := rfl
  rw [halpha, hupper, hlower]
  simp only [StartsName, Char.le_def, Bool.or_eq_true, Bool.and_eq_true, decide_eq_true_eq,
    beq_iff_eq, or_assoc]

theorem continuesName_iff (c : Char) :
    ContinuesName c ↔ (c.isAlphanum || c == '_') = true := by
  simp only [ContinuesName, startsName_iff, Char.isAlphanum, Char.isDigit, Char.le_def,
    Bool.or_eq_true, Bool.and_eq_true, decide_eq_true_eq, beq_iff_eq, ge_iff_le]
  tauto

theorem isName_iff (text : String) : IsName text ↔ Parser.isName text = true := by
  unfold IsName Parser.isName
  rcases text.toList with _ | ⟨c, rest⟩
  · simp
  · simp only [List.cons.injEq, Bool.and_eq_true, List.all_eq_true, ← startsName_iff,
      ← continuesName_iff]
    constructor
    · rintro ⟨d, tail, ⟨rfl, rfl⟩, hstart, htail⟩
      exact ⟨hstart, htail⟩
    · exact fun ⟨hstart, htail⟩ ↦ ⟨c, rest, ⟨rfl, rfl⟩, hstart, htail⟩

theorem ofSign?_eq_some_iff {c : Char} {direction : Direction} :
    Direction.ofSign? c = some direction ↔ c = direction.sign := by
  cases direction <;> simp only [Direction.ofSign?, Direction.sign] <;> split <;> simp_all

theorem splitDirection?_eq_some_iff {word key : String} {direction : Direction} :
    Parser.splitDirection? word = some (direction, key) ↔ SignedWord direction key word := by
  unfold Parser.splitDirection? SignedWord
  rcases word.toList with _ | ⟨c, rest⟩
  · simp
  · simp only [Option.map_eq_some_iff, Prod.mk.injEq, ofSign?_eq_some_iff, List.cons.injEq]
    constructor
    · rintro ⟨_, rfl, rfl, rfl⟩
      refine ⟨rest.takeWhile Text.isBlank, fun d hd ↦ List.mem_takeWhile_imp hd, ⟨rfl, ?_⟩, ?_⟩
      · simp [Text.trimLeft]
      · intro d hd
        have hhead := List.head?_dropWhile_not Text.isBlank rest
        simp only [String.toList_ofList, Text.trimLeft] at hd
        simpa only [Option.mem_def.1 hd] using hhead
    · rintro ⟨blanks, hblanks, ⟨rfl, rfl⟩, hkey⟩
      refine ⟨direction, rfl, rfl, ?_⟩
      have htrim : Text.trimLeft (blanks ++ key.toList) = key.toList := by
        rw [Text.trimLeft, List.dropWhile_append_of_pos hblanks]
        rcases htext : key.toList with _ | ⟨d, tail⟩
        · rfl
        · rw [htext] at hkey
          exact Text.trimLeft_eq_self (hkey d rfl)
      rw [htrim, String.ofList_toList]

theorem isSigned_iff {word : String} :
    IsSigned word ↔ Parser.splitDirection? word ≠ none := by
  simp only [IsSigned, ← splitDirection?_eq_some_iff, ne_eq, Option.eq_none_iff_forall_ne_some,
    not_forall, not_not, Prod.exists]

theorem separates_iff {joint : Joint} {token : Token} :
    Separates joint token ↔ Joint.ofToken? token = some joint := by
  constructor
  · rintro (_ | _ | _) <;> rfl
  · intro h
    cases token <;> simp only [Joint.ofToken?, Option.some.injEq, reduceCtorEq] at h <;> subst h
    · exact .comma
    · exact .ampersand
    · exact .pipe

theorem joins_iff {joint : Joint} {c tree : Call} {cs : List Call} :
    Joins joint (c :: cs) tree ↔ tree = joint.join (c :: cs) := by
  constructor
  · intro h
    cases h with
    | single => cases joint <;> rfl
    | and | or => rfl
  · rintro rfl
    cases cs with
    | nil => cases joint <;> exact .single c
    | cons d cs =>
      cases joint with
      | conjunction => exact .and c d cs
      | disjunction => exact .or c d cs

/-- What a list of tokens can stand for. `tail` is for the clauses behind the first one. -/
inductive Phrase where
  | query (c : Call)
  | clause (c : Call)
  | tail (joint : Joint) (cs : List Call)
  | group (c : Call)
  | call (c : Call)
  | comparison (c : Call)
  | args (inSort : Bool) (as : List Arg)
  | arg (inSort : Bool) (a : Arg)
  | sortArg (direction : Direction) (key : Value)
  | value (v : Value)
  | array (v : Value)
  | values (vs : List Value)

open Token Phrase in
/-- A word in the place of a value counts as the value that it resolves to. The arguments of `sort`
are read in their own way: there a word with a sign in front is never a plain value. -/
inductive Derives : Phrase → List Token → Prop
  | query {c tree : Call} {cs : List Call} {ts us : List Token} :
      Derives (clause c) ts → Derives (tail .conjunction cs) us →
      Joins .conjunction (c :: cs) tree → Derives (query tree) (ts ++ us)
  | clauseGroup {c : Call} {ts : List Token} : Derives (group c) ts → Derives (clause c) ts
  | clauseCall {c : Call} {ts : List Token} : Derives (call c) ts → Derives (clause c) ts
  | clauseComparison {c : Call} {ts : List Token} :
      Derives (comparison c) ts → Derives (clause c) ts
  | tailNil {joint : Joint} : Derives (tail joint []) []
  | tailCons {joint : Joint} {separator : Token} {c : Call} {cs : List Call}
      {ts us : List Token} :
      Separates joint separator → Derives (clause c) ts → Derives (tail joint cs) us →
      Derives (tail joint (c :: cs)) (separator :: (ts ++ us))
  | group {joint : Joint} {c tree : Call} {cs : List Call} {ts us : List Token} :
      Derives (clause c) ts → Derives (tail joint cs) us → Joins joint (c :: cs) tree →
      Derives (group tree) (leftParen :: (ts ++ us ++ [rightParen]))
  | callEmpty {name : String} :
      IsName name → Derives (call ⟨name, []⟩) [word name, leftParen, rightParen]
  | call {name : String} {as : List Arg} {ts : List Token} :
      IsName name → Derives (args (name == "sort") as) ts →
      Derives (call ⟨name, as⟩) (word name :: leftParen :: (ts ++ [rightParen]))
  | equality {field operand : Value} {ts us : List Token} :
      Derives (value field) ts → Derives (value operand) us →
      Derives (comparison ⟨"eq", [.value field, .value operand]⟩) (ts ++ equals :: us)
  | comparison {name : String} {field operand : Value} {ts us : List Token} :
      IsName name → Derives (value field) ts → Derives (value operand) us →
      Derives (comparison ⟨name, [.value field, .value operand]⟩)
        (ts ++ equals :: word name :: equals :: us)
  | argsOne {inSort : Bool} {a : Arg} {ts : List Token} :
      Derives (arg inSort a) ts → Derives (args inSort [a]) ts
  | argsCons {inSort : Bool} {a : Arg} {as : List Arg} {ts us : List Token} :
      Derives (arg inSort a) ts → Derives (args inSort as) us →
      Derives (args inSort (a :: as)) (ts ++ comma :: us)
  | argCall {inSort : Bool} {name : String} {as : List Arg} {ts : List Token} :
      Derives (call ⟨name, as⟩) ts → Derives (arg inSort (.call name as)) ts
  | argSort {direction : Direction} {key : Value} {ts : List Token} :
      Derives (sortArg direction key) ts → Derives (arg true (.sortKey direction key)) ts
  | argValue {inSort : Bool} {v : Value} {ts : List Token} :
      (inSort = true → ∀ signed, IsSigned signed → ts ≠ [word signed]) →
      Derives (value v) ts → Derives (arg inSort (.value v)) ts
  | sortWord {direction : Direction} {key signed : String} {v : Value} :
      SignedWord direction key signed → key ≠ "" → Literal.resolve key = .ok v →
      Derives (sortArg direction v) [word signed]
  | sortArray {direction : Direction} {signed : String} {v : Value} {ts : List Token} :
      SignedWord direction "" signed → Derives (array v) ts →
      Derives (sortArg direction v) (word signed :: ts)
  | valueArray {v : Value} {ts : List Token} : Derives (array v) ts → Derives (value v) ts
  | valueWord {raw : String} {v : Value} :
      Literal.resolve raw = .ok v → Derives (value v) [word raw]
  | array {vs : List Value} {ts : List Token} :
      Derives (values vs) ts → Derives (array (.array vs)) (leftParen :: (ts ++ [rightParen]))
  | valuesOne {v : Value} {ts : List Token} : Derives (value v) ts → Derives (values [v]) ts
  | valuesCons {v : Value} {vs : List Value} {ts us : List Token} :
      Derives (value v) ts → Derives (values vs) us →
      Derives (values (v :: vs)) (ts ++ comma :: us)

/-- Tokens of which the parentheses close one another. -/
inductive Nested : List Token → Prop
  | nil : Nested []
  | append {ts us : List Token} : Nested ts → Nested us → Nested (ts ++ us)
  | parens {ts : List Token} : Nested ts → Nested (.leftParen :: (ts ++ [.rightParen]))
  | cons {token : Token} {ts : List Token} :
      token ≠ .leftParen → token ≠ .rightParen → Nested ts → Nested (token :: ts)

theorem Separates.ne_paren {joint : Joint} {token : Token} (h : Separates joint token) :
    token ≠ .leftParen ∧ token ≠ .rightParen := by
  cases h <;> simp

/-- A phrase opens no parenthesis that it does not close, and closes none that it does not open. -/
theorem Derives.nested {phrase : Phrase} {ts : List Token} (h : Derives phrase ts) :
    Nested ts := by
  have hword (word : String) {us : List Token} (hus : Nested us) : Nested (.word word :: us) :=
    hus.cons (by simp) (by simp)
  have hcomma {us : List Token} (hus : Nested us) : Nested (.comma :: us) :=
    hus.cons (by simp) (by simp)
  have hequals {us : List Token} (hus : Nested us) : Nested (.equals :: us) :=
    hus.cons (by simp) (by simp)
  induction h with
  | query _ _ _ ihfirst ihmore => exact ihfirst.append ihmore
  | tailNil => exact .nil
  | tailCons hseparates _ _ ihfirst ihmore =>
    exact (ihfirst.append ihmore).cons hseparates.ne_paren.1 hseparates.ne_paren.2
  | group _ _ _ ihfirst ihmore => exact (ihfirst.append ihmore).parens
  | callEmpty => exact hword _ Nested.nil.parens
  | call _ _ ih => exact hword _ ih.parens
  | equality _ _ ihfield ihoperand => exact ihfield.append (hequals ihoperand)
  | comparison _ _ _ ihfield ihoperand =>
    exact ihfield.append (hequals (hword _ (hequals ihoperand)))
  | argsCons _ _ ihfirst ihmore => exact ihfirst.append (hcomma ihmore)
  | sortWord => exact hword _ .nil
  | sortArray _ _ ih => exact hword _ ih
  | valueWord => exact hword _ .nil
  | array _ ih => exact ih.parens
  | valuesCons _ _ ihfirst ihmore => exact ihfirst.append (hcomma ihmore)
  | _ => assumption

/-- Tokens that a value may have: one word, or two parentheses that close one another. -/
inductive IsOperand : List Token → Prop
  | word (raw : String) : IsOperand [.word raw]
  | parens {inside : List Token} :
      Nested inside → IsOperand (.leftParen :: (inside ++ [.rightParen]))

theorem IsOperand.nested {ts : List Token} (h : IsOperand ts) : Nested ts := by
  cases h with
  | word raw => exact .cons (by simp) (by simp) .nil
  | parens hinside => exact hinside.parens

theorem Derives.isOperand {v : Value} {ts : List Token} (h : Derives (.value v) ts) :
    IsOperand ts := by
  cases h with
  | valueWord => exact .word _
  | valueArray h =>
    cases h with
    | array hvalues => exact .parens hvalues.nested

end ResourceQuery.Grammar
