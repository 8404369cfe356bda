import ResourceQuery.Expr.Call
import ResourceQuery.Expr.ParseError
import ResourceQuery.Text.Parsed

/-!
The grammar of query texts. A query is one or more clauses; a clause is a call, a comparison written
with equals signs, or a group of clauses in parentheses that are joined either by `&` and `,` or by
`|`. Each reader takes a phrase off the front of the lexemes and leaves the rest, or gives the cause
of its failure with a position.
-/

set_option autoImplicit false

namespace ResourceQuery

namespace Parser

open Text (Parsed)

structure Fault where
  cause : ParseError.Cause
  position : Nat

abbrev Result (α : Type) (bound : Nat) := Except Fault (Parsed Lexeme α bound)

/-- The position of the first lexeme, or of the end of the text. -/
def positionOf (stop : Nat) : List Lexeme → Nat
  | [] => stop
  | lexeme :: _ => lexeme.position

def unexpected (stop : Nat) (expected : Expected) (ls : List Lexeme) : Fault :=
  ⟨.unexpected expected (ls.head?.map Lexeme.token), positionOf stop ls⟩

def isName (text : String) : Bool :=
  match text.toList with
  | [] => false
  | c :: rest => (c.isAlpha || c == '_') && rest.all fun d ↦ d.isAlphanum || d == '_'

def checkName (name : String) (position : Nat) : Except Fault Unit :=
  if isName name then .ok () else .error ⟨.invalidName name, position⟩

def resolve (raw : String) (position : Nat) : Except Fault Value :=
  match Literal.resolve raw with
  | .ok value => .ok value
  | .error e => .error ⟨.literal e, position⟩

/-- Reads the parenthesis that closes what was opened at `start`. -/
def close (stop start : Nat) (ls : List Lexeme) : Result Unit ls.length :=
  match ls with
  | [] => .error ⟨.unclosed, start⟩
  | ⟨.rightParen, _⟩ :: rest => .ok ⟨(), rest, Nat.lt_succ_self _⟩
  | _ => .error (unexpected stop .rightParen ls)

mutual

/-- A word, or values in parentheses. -/
def value (stop : Nat) (ls : List Lexeme) : Result Value ls.length :=
  match ls with
  | ⟨.leftParen, start⟩ :: rest => do
    let items ← values stop rest
    let closed ← close stop start items.rest
    return ⟨.array items.value, closed.rest, by
      have := items.shorter; have := closed.shorter; simp only [List.length_cons]; omega⟩
  | ⟨.word raw, position⟩ :: rest => do
    return ⟨← resolve raw position, rest, Nat.lt_succ_self _⟩
  | _ => .error (unexpected stop .value ls)
termination_by (ls.length, 0)

/-- One or more values with commas between them. -/
def values (stop : Nat) (ls : List Lexeme) : Result (List Value) ls.length := do
  let first ← value stop ls
  match h : first.rest with
  | ⟨.comma, _⟩ :: rest =>
    let more ← values stop rest
    return ⟨first.value :: more.value, more.rest, by
      have := first.shorter; have := more.shorter; simp_all; omega⟩
  | rest => return ⟨[first.value], rest, by have := first.shorter; simp_all⟩
termination_by (ls.length, 1)
decreasing_by
  · simp [Prod.lex_def]
  · have := first.shorter
    simp_all [Prod.lex_def]
    omega

end

/-- `value=value`, or `value=name=value` for an operator other than `eq`. -/
def comparison (stop : Nat) (ls : List Lexeme) : Result Call ls.length := do
  let field ← value stop ls
  match h : field.rest with
  | ⟨.equals, _⟩ :: ⟨.word name, position⟩ :: ⟨.equals, _⟩ :: rest =>
    checkName name position
    let operand ← value stop rest
    return ⟨⟨name, [.value field.value, .value operand.value]⟩, operand.rest, by
      have := field.shorter; have := operand.shorter; simp_all; omega⟩
  | ⟨.equals, _⟩ :: rest =>
    let operand ← value stop rest
    return ⟨⟨"eq", [.value field.value, .value operand.value]⟩, operand.rest, by
      have := field.shorter; have := operand.shorter; simp_all; omega⟩
  | rest => .error (unexpected stop .equals rest)

/-- Whether the parenthesis that closes the innermost of `depth` open ones, all of them closed in
turn, is followed by an equals sign. -/
def closesBeforeEquals (depth : Nat) : List Lexeme → Bool
  | [] => false
  | ⟨.leftParen, _⟩ :: rest => closesBeforeEquals (depth + 1) rest
  | ⟨.rightParen, _⟩ :: rest =>
    if depth ≤ 1 then (rest.head?.map Lexeme.token) == some .equals
    else closesBeforeEquals (depth - 1) rest
  | _ :: rest => closesBeforeEquals depth rest

/-- How the clauses of a group are joined. -/
inductive Joint where
  | conjunction
  | disjunction
  deriving DecidableEq

def Joint.ofToken? : Token → Option Joint
  | .pipe => some .disjunction
  | .ampersand | .comma => some .conjunction
  | _ => none

def Joint.join : Joint → List Call → Call
  | .conjunction => Call.conjunction
  | .disjunction => Call.disjunction

/-- The joint that the lexemes start with. Where there is none, a group is a conjunction. -/
def jointOf (ls : List Lexeme) : Joint :=
  (ls.head?.bind (Joint.ofToken? ·.token)).getD .conjunction

/-- The direction and the rest of a word that starts with a sign. -/
def splitDirection? (word : String) : Option (Direction × String) :=
  match word.toList with
  | [] => none
  | c :: rest => (Direction.ofSign? c).map (·, String.ofList (Text.trimLeft rest))

/-- A sort key behind its direction: the rest of the word, or values in parentheses where nothing is
left of the word. -/
def sortKey (stop : Nat) (key : String) (position : Nat) (ls : List Lexeme) :
    Result Value (ls.length + 1) :=
  if key = "" then
    match ls with
    | ⟨.leftParen, start⟩ :: rest => do
      return (← value stop (⟨.leftParen, start⟩ :: rest)).mono (Nat.le_succ _)
    | ls => .error (unexpected stop .sortKey ls)
  else do
    return ⟨← resolve key (position + 1), ls, Nat.lt_succ_self _⟩

mutual

def clause (stop : Nat) (ls : List Lexeme) : Result Call ls.length :=
  match ls with
  | ⟨.leftParen, start⟩ :: rest =>
    if closesBeforeEquals 1 rest then comparison stop (⟨.leftParen, start⟩ :: rest)
    else do
      let first ← clause stop rest
      let joint := jointOf first.rest
      let more ← moreClauses stop joint .mixedGroup first.rest
      let closed ← close stop start more.rest
      return ⟨joint.join (first.value :: more.value), closed.rest, by
        have := first.shorter; have := more.shorter; have := closed.shorter
        simp only [List.length_cons]; omega⟩
  | ⟨.word name, position⟩ :: ⟨.leftParen, _⟩ :: rest => do
    checkName name position
    let args ← arguments stop (name == "sort") position rest
    return ⟨⟨name, args.value⟩, args.rest, by
      have := args.shorter; simp only [List.length_cons]; omega⟩
  | ⟨.word word, position⟩ :: ⟨.equals, other⟩ :: rest =>
    comparison stop (⟨.word word, position⟩ :: ⟨.equals, other⟩ :: rest)
  | ⟨.word _, _⟩ :: rest => .error (unexpected stop .callOrComparison rest)
  | _ => .error (unexpected stop .clause ls)
termination_by (ls.length, 0)
decreasing_by
  · simp [Prod.lex_def]
  · have := first.shorter
    simp only [Prod.lex_def, List.length_cons]
    omega

/-- The clauses behind the first one of a group. Where they are joined otherwise, `mixed` is the
cause of the failure. -/
def moreClauses (stop : Nat) (joint : Joint) (mixed : ParseError.Cause) (ls : List Lexeme) :
    Result (List Call) (ls.length + 1) :=
  match ls with
  | [] => .ok ⟨[], [], Nat.lt_succ_self _⟩
  | lexeme :: rest =>
    match Joint.ofToken? lexeme.token with
    | none => .ok ⟨[], lexeme :: rest, Nat.lt_succ_self _⟩
    | some other =>
      if other = joint then do
        let first ← clause stop rest
        let more ← moreClauses stop joint mixed first.rest
        return ⟨first.value :: more.value, more.rest, by
          have := first.shorter; have := more.shorter; simp only [List.length_cons]; omega⟩
      else .error ⟨mixed, lexeme.position⟩
termination_by (ls.length, 0)
decreasing_by
  · simp [Prod.lex_def]
  · have := first.shorter
    simp only [Prod.lex_def, List.length_cons]
    omega

/-- The arguments of a call behind its opening parenthesis, with the closing one. The call starts at
`start`. -/
def arguments (stop : Nat) (inSort : Bool) (start : Nat) (ls : List Lexeme) :
    Result (List Arg) ls.length :=
  match ls with
  | ⟨.rightParen, _⟩ :: rest => .ok ⟨[], rest, Nat.lt_succ_self _⟩
  | ls => do
    let args ← args stop inSort ls
    let closed ← close stop start args.rest
    return ⟨args.value, closed.rest, by
      have := args.shorter; have := closed.shorter; omega⟩
termination_by (ls.length, 2)

/-- One or more arguments with commas between them. -/
def args (stop : Nat) (inSort : Bool) (ls : List Lexeme) : Result (List Arg) ls.length := do
  let first ← arg stop inSort ls
  match h : first.rest with
  | ⟨.comma, _⟩ :: rest =>
    let more ← args stop inSort rest
    return ⟨first.value :: more.value, more.rest, by
      have := first.shorter; have := more.shorter; simp_all; omega⟩
  | rest => return ⟨[first.value], rest, by have := first.shorter; simp_all⟩
termination_by (ls.length, 1)
decreasing_by
  · simp [Prod.lex_def]
  · have := first.shorter
    simp_all [Prod.lex_def]
    omega

/-- A word with a sign in front is always a key where it is an argument of `sort`. -/
def arg (stop : Nat) (inSort : Bool) (ls : List Lexeme) : Result Arg ls.length :=
  match ls with
  | ⟨.word word, position⟩ :: rest =>
    match if inSort then splitDirection? word else none with
    | some (direction, key) => do
      let key ← sortKey stop key position rest
      return ⟨.sortKey direction key.value, key.rest, by
        have := key.shorter; simp only [List.length_cons]; omega⟩
    | none =>
      match rest with
      | ⟨.leftParen, _⟩ :: behind => do
        checkName word position
        let args ← arguments stop (word == "sort") position behind
        return ⟨.call word args.value, args.rest, by
          have := args.shorter; simp only [List.length_cons]; omega⟩
      | rest => do
        return (← value stop (⟨.word word, position⟩ :: rest)).map .value
  | ls => do
    return (← value stop ls).map .value
termination_by (ls.length, 0)

end

/-- Reads a whole query. Its clauses are joined like those of a conjunction. -/
def query (stop : Nat) (ls : List Lexeme) : Except Fault Call := do
  if ls.isEmpty then throw ⟨.empty, stop⟩
  let first ← clause stop ls
  let more ← moreClauses stop .conjunction .bareOr first.rest
  match more.rest with
  | [] => return Call.conjunction (first.value :: more.value)
  | ⟨.rightParen, position⟩ :: _ => throw ⟨.strayClose, position⟩
  | rest => throw (unexpected stop .endOfQuery rest)

end Parser

/-- The call tree of a query text. -/
def parse (text : String) : Except ParseError Call :=
  match Parser.query text.length (Lexeme.ofText text) with
  | .ok call => .ok call
  | .error fault => .error (.locate text fault.cause fault.position)

end ResourceQuery
