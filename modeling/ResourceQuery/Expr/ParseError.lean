import ResourceQuery.Expr.Token
import ResourceQuery.Literal

/-!
Errors of query texts: what is wrong and where, with a fragment of the text from there on.
-/

set_option autoImplicit false

namespace ResourceQuery

/-- What a text should go on with. -/
inductive Expected where
  | clause
  | callOrComparison
  | operatorName
  | value
  | sortKey
  | equals
  | rightParen
  | endOfQuery
  deriving DecidableEq

def Expected.describe : Expected → String
  | .clause => "a query clause"
  | .callOrComparison => "'(' or '='"
  | .operatorName => "an operator name"
  | .value => "a value"
  | .sortKey => "a sort key"
  | .equals => "'='"
  | .rightParen => "')'"
  | .endOfQuery => "'&' or end of input"

inductive ParseError.Cause where
  | empty
  /-- The token is `none` at the end of the text. -/
  | unexpected (expected : Expected) (found : Option Token)
  | unclosed
  | strayClose
  | invalidName (name : String)
  | literal (error : LiteralError)
  | mixedGroup
  | bareOr
  deriving DecidableEq

namespace ParseError.Cause

def message : Cause → String
  | .empty => "empty query"
  | .unexpected expected found =>
    "expected " ++ expected.describe ++ ", found " ++ Token.describe found
  | .unclosed => "unbalanced parentheses: missing ')'"
  | .strayClose => "unbalanced parentheses: unexpected ')'"
  | .invalidName name => "invalid operator name '" ++ name ++ "'"
  | .literal error => error.message
  | .mixedGroup => "cannot mix '&' and '|' in one group; add parentheses"
  | .bareOr => "'|' must be enclosed in parentheses"

end ParseError.Cause

structure ParseError where
  cause : ParseError.Cause
  position : Nat
  fragment : String
  deriving DecidableEq

namespace ParseError

def fragmentLength : Nat := 24

/-- An error at a position of a text. -/
def locate (text : String) (cause : Cause) (position : Nat) : ParseError :=
  ⟨cause, position, ResourceQuery.fragment text position fragmentLength⟩

def message (e : ParseError) : String :=
  e.cause.message ++ " at position " ++ String.ofList (Text.digits e.position) ++ " near `" ++
    e.fragment ++ "`"

end ParseError

end ResourceQuery
