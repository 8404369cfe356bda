import ResourceQuery.Text.Blank

/-!
Tokens of a query text. Six characters are tokens of their own; a run of other characters is a word,
without the blanks at its ends. Positions count characters from the start of the text. The
statements say that reading a lexeme always shortens what is left.
-/

set_option autoImplicit false

namespace ResourceQuery

inductive Token where
  | word (text : String)
  | leftParen
  | rightParen
  | comma
  | ampersand
  | pipe
  | equals
  deriving DecidableEq

namespace Token

def ofDelimiter? : Char → Option Token
  | '(' => some .leftParen
  | ')' => some .rightParen
  | ',' => some .comma
  | '&' => some .ampersand
  | '|' => some .pipe
  | '=' => some .equals
  | _ => none

def isDelimiter (c : Char) : Bool :=
  (ofDelimiter? c).isSome

def text : Token → String
  | .word text => text
  | .leftParen => "("
  | .rightParen => ")"
  | .comma => ","
  | .ampersand => "&"
  | .pipe => "|"
  | .equals => "="

/-- What an error message calls a token, or the end of the text. -/
def describe : Option Token → String
  | some token => "'" ++ token.text ++ "'"
  | none => "end of input"

end Token

structure Lexeme where
  token : Token
  position : Nat
  deriving DecidableEq

namespace Lexeme

/-- The characters up to the next delimiter. -/
def run (cs : List Char) : List Char :=
  cs.takeWhile (!Token.isDelimiter ·)

/-- The first lexeme of a text that starts at `position`, with the text behind it and the position
of that text. -/
def next? (position : Nat) : List Char → Option (Lexeme × Nat × List Char)
  | [] => none
  | c :: rest =>
    if Text.isBlank c then next? (position + 1) rest
    else
      match Token.ofDelimiter? c with
      | some token => some (⟨token, position⟩, position + 1, rest)
      | none =>
        let word := run (c :: rest)
        some (⟨.word (String.ofList (Text.trimRight word)), position⟩, position + word.length,
          (c :: rest).drop word.length)

theorem run_cons_of_not_delimiter {c : Char} {cs : List Char} (h : Token.ofDelimiter? c = none) :
    run (c :: cs) = c :: run cs := by
  simp [run, Token.isDelimiter, h]

theorem length_of_next? {position behind : Nat} {cs rest : List Char} {lexeme : Lexeme}
    (h : next? position cs = some (lexeme, behind, rest)) : rest.length < cs.length := by
  induction cs generalizing position with
  | nil => simp [next?] at h
  | cons c cs ih =>
    rw [next?] at h
    split at h
    · exact Nat.lt_succ_of_lt (ih h)
    · split at h
      · simp_all
      · next hword =>
        simp only [Option.some.injEq, Prod.mk.injEq] at h
        rw [← h.2.2, run_cons_of_not_delimiter hword]
        simp only [List.length_cons, List.drop_succ_cons, List.length_drop]
        omega

/-- The lexemes of a text that starts at `position`. -/
def listFrom (position : Nat) (cs : List Char) : List Lexeme :=
  match _h : next? position cs with
  | none => []
  | some (lexeme, behind, rest) => lexeme :: listFrom behind rest
termination_by cs.length
decreasing_by exact length_of_next? _h

def ofText (text : String) : List Lexeme :=
  listFrom 0 text.toList

end Lexeme

/-- At most `length` characters of a text from `position` on. -/
def fragment (text : String) (position length : Nat) : String :=
  String.ofList ((text.toList.drop position).take length)

/-- A place in a text from which lexemes are read one by one. -/
structure Cursor where
  text : String
  position : Nat := 0

namespace Cursor

/-- Reads a lexeme and moves behind it. At the end of the text there is none, and the cursor stays
there. -/
def next (cursor : Cursor) : Option Lexeme × Cursor :=
  match Lexeme.next? cursor.position (cursor.text.toList.drop cursor.position) with
  | some (lexeme, behind, _) => (some lexeme, { cursor with position := behind })
  | none => (none, { cursor with position := max cursor.position cursor.text.length })

end Cursor

end ResourceQuery
