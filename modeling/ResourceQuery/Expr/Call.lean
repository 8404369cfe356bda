import ResourceQuery.Value.Json
import ResourceQuery.Value.Order

/-!
Call trees: the meaning of a query text before its operators are looked up. Every form of the text
ends in calls of named operators, whose arguments are calls, values and, for `sort`, keys with a
direction.
-/

set_option autoImplicit false

namespace ResourceQuery

inductive Direction where
  | ascending
  | descending
  deriving DecidableEq

namespace Direction

def apply : Direction → Ordering → Ordering
  | .ascending, order => order
  | .descending, order => order.swap

def sign : Direction → Char
  | .ascending => '+'
  | .descending => '-'

def ofSign? (c : Char) : Option Direction :=
  if c = '+' then some .ascending else if c = '-' then some .descending else none

end Direction

inductive Arg where
  | call (name : String) (args : List Arg)
  | value (v : Value)
  | sortKey (direction : Direction) (key : Value)
  deriving Inhabited

structure Call where
  name : String
  args : List Arg
  deriving Inhabited

namespace Arg

/-- What an error message calls an argument. -/
def kind : Arg → String
  | .call .. => "call"
  | .value v => v.typeName
  | .sortKey .. => "sort key"

def toCall? : Arg → Option Call
  | .call name args => some ⟨name, args⟩
  | _ => none

mutual

def identical : Arg → Arg → Bool
  | .call m as, .call n bs => m == n && identicalArgs as bs
  | .value v, .value w => v.identical w
  | .sortKey d v, .sortKey e w => d == e && v.identical w
  | _, _ => false

def identicalArgs : List Arg → List Arg → Bool
  | [], [] => true
  | a :: as, b :: bs => identical a b && identicalArgs as bs
  | _, _ => false

end

mutual

/-- A call as an object of its name and arguments, and a sort key as a pair of its sign and key. -/
def toJson : Arg → Json
  | .call name args => .object [("name", .string name), ("args", .array (toJsonList args))]
  | .value v => v.toJson
  | .sortKey direction key => .array [.string (String.ofList [direction.sign]), key.toJson]

def toJsonList : List Arg → List Json
  | [] => []
  | arg :: rest => toJson arg :: toJsonList rest

end

end Arg

namespace Call

def toArg (c : Call) : Arg :=
  .call c.name c.args

def toJson (c : Call) : Json :=
  c.toArg.toJson

def identical (c d : Call) : Bool :=
  c.toArg.identical d.toArg

/-- Several clauses as the arguments of one call; a single clause stands for itself. -/
def join (name : String) : List Call → Call
  | [clause] => clause
  | clauses => ⟨name, clauses.map toArg⟩

def conjunction (clauses : List Call) : Call :=
  join "and" clauses

def disjunction (clauses : List Call) : Call :=
  join "or" clauses

end Call

end ResourceQuery
