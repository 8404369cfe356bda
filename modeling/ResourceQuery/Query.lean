import ResourceQuery.Expr.Parser
import ResourceQuery.Expr.Printer
import ResourceQuery.Pipeline.Compile
import ResourceQuery.Pipeline.Run

/-!
Queries: records with a pipeline that grows by one expression after the other. Refining a query
makes a new one; its expression keeps the texts that it was refined by.
-/

set_option autoImplicit false

namespace ResourceQuery

inductive QueryError where
  | parse (error : ParseError)
  | eval (error : EvalError)
  deriving DecidableEq

def QueryError.message : QueryError → String
  | .parse error => "syntax error: " ++ error.message
  | .eval error => "query error: " ++ error.message

structure QueryOptions where
  /-- The most elements of a sequence that no `limit` has cut. -/
  defaultLimit : Option Nat := none
  /-- The most that a `limit` may count. -/
  maxLimit : Option Nat := none
  /-- The fields on which equality at the top of an expression is left out. -/
  ignoreTopEq : List String := []

namespace QueryOptions

def ignores (options : QueryOptions) (clause : Call) : Bool :=
  clause.name == "eq" &&
    match clause.args with
    | .value (.string field) :: _ => field ∈ options.ignoreTopEq
    | _ => false

end QueryOptions

structure Query where
  records : List Record
  options : QueryOptions := {}
  /-- The expressions of the query so far, joined by `&`. -/
  expr : String := ""
  clauses : List Call := []
  pipeline : List Stage := []
  /-- Whether a stage of the pipeline is a limit. -/
  hasLimit : Bool := false

namespace Query

def withOptions (q : Query) (options : QueryOptions) : Query :=
  { q with options }

/-- The call tree of all clauses. -/
def parsed? (q : Query) : Option Call :=
  if q.clauses.isEmpty then none else some (Call.conjunction q.clauses)

/-- The clauses that a call tree joins at its top. -/
def topClauses (c : Call) : List Call :=
  match c.args.mapM Arg.toCall? with
  | some (clause :: rest) => if c.name = "and" then clause :: rest else [c]
  | _ => [c]

/-- The clauses of a call tree that are not ignored. -/
def keptClauses (options : QueryOptions) (tree : Call) : List Call :=
  (topClauses tree).filter (!options.ignores ·)

/-- Compiles clauses into stages of which the first one stands at `position`. -/
def compileFrom (maxLimit : Option Nat) (position : Nat) :
    List Call → Except EvalError (List Stage)
  | [] => .ok []
  | clause :: rest =>
    match clause.compile maxLimit with
    | .ok stage => do return stage :: (← compileFrom maxLimit (position + 1) rest)
    | .error e => .error (.stage position clause.name e)

def joinExprs (first second : String) : String :=
  if first = "" then second else first ++ "&" ++ second

/-- Adds an expression with its clauses and their stages. -/
def extend (q : Query) (expr : String) (clauses : List Call) (stages : List Stage) : Query :=
  { q with
    expr := joinExprs q.expr expr
    clauses := q.clauses ++ clauses
    pipeline := q.pipeline ++ stages
    hasLimit := q.hasLimit || stages.any Stage.isLimit }

/-- Adds the clauses of an expression to a query. A blank expression adds nothing. -/
def refine (q : Query) (expr : String) : Except QueryError Query :=
  if Text.allBlank expr.toList then .ok q
  else
    match parse expr with
    | .error e => .error (.parse e)
    | .ok tree =>
      let clauses := keptClauses q.options tree
      match compileFrom q.options.maxLimit q.pipeline.length clauses with
      | .error e => .error (.eval e)
      | .ok stages => .ok (q.extend expr clauses stages)

/-- Runs stages of which the first one stands at `position`. -/
def runFrom (position : Nat) : List Stage → State → Except EvalError State
  | [], s => .ok s
  | stage :: rest, s =>
    match stage.run s with
    | .ok next => runFrom (position + 1) rest next
    | .error e => .error (.stage position stage.name e)

/-- Cuts a sequence to the default limit where no stage has limited it. -/
def applyDefaultLimit (q : Query) (s : State) : Except EvalError State :=
  match q.options.defaultLimit with
  | some count =>
    if !q.hasLimit && s.isSequence then (Stage.limit (some count) 0).run s else .ok s
  | none => .ok s

/-- Runs the pipeline over the records. -/
def result (q : Query) : Except EvalError State := do
  q.applyDefaultLimit (← runFrom 0 q.pipeline (.records q.records))

/-- The result of the query refined by an expression. -/
def answer (q : Query) (expr : String) : Except QueryError State :=
  match q.refine expr with
  | .error e => .error e
  | .ok refined =>
    match refined.result with
    | .ok s => .ok s
    | .error e => .error (.eval e)

end Query

end ResourceQuery
