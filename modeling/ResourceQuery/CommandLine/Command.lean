import ResourceQuery.CommandLine.Arguments
import ResourceQuery.Json.Reader
import ResourceQuery.Query

/-!
The commands of the program: to check a query against a JSON array of objects, to show its call tree
as JSON, and to write it in canonical form.
-/

set_option autoImplicit false

namespace ResourceQuery.CommandLine

inductive CommandError where
  | query (error : QueryError)
  | invalidJson
  | noInput
  deriving DecidableEq

def CommandError.message : CommandError → String
  | .query error => error.message
  | .invalidJson => "invalid JSON"
  | .noInput => "no input provided, use --input or pipe JSON to stdin"

def parseQuery (text : String) : Except CommandError Call :=
  match parse text with
  | .ok call => .ok call
  | .error e => .error (.query (.parse e))

/-- The query over the records of a JSON text. -/
def queryOfJson (input : String) (options : QueryOptions) : Except CommandError Query :=
  match Json.read? input with
  | none => .error .invalidJson
  | some json =>
    match Record.listOfJson json with
    | .error e => .error (.query (.eval e))
    | .ok records => .ok { records, options }

/-- What a check is made of. -/
structure Check where
  query : String
  input : Option String := none
  syntaxOnly : Bool := false
  options : QueryOptions := {}

/-- The result of a query as JSON, or nothing where only its syntax is checked. -/
def Check.run (c : Check) : Except CommandError (Option Json) :=
  if c.syntaxOnly then
    if Text.allBlank c.query.toList then .ok none else do
      let _ ← parseQuery c.query
      return none
  else
    match c.input with
    | none => .error .noInput
    | some input => do
      let q ← queryOfJson input c.options
      match q.answer c.query with
      | .ok s => return some s.toJson
      | .error e => throw (.query e)

inductive Command where
  | check (c : Check) (layout : Json.Layout)
  | parse (query : String) (layout : Json.Layout)
  | normalize (query : String)

/-- Whether the command reads its input from the standard input. -/
def Command.needsInput : Command → Bool
  | .check c _ => c.input.isNone && !c.syntaxOnly
  | _ => false

/-- Gives a command the text that it needs. -/
def Command.withInput (text : String) : Command → Command
  | .check c layout => .check { c with input := some text } layout
  | command => command

/-- What a command prints. -/
def Command.output : Command → Except CommandError String
  | .check c layout => do
    match ← c.run with
    | some json => return json.toText layout
    | none => return "Syntax is valid"
  | .parse query layout => do return (← parseQuery query).toJson.toText layout
  | .normalize query => do return (← parseQuery query).toText

def globalOptions : List OptionSpec :=
  [⟨"verbose", some 'v', .flag⟩, ⟨"help", some 'h', .help⟩]

def prettyOption : OptionSpec :=
  ⟨"pretty", some 'p', .flag⟩

def checkOptions : List OptionSpec :=
  globalOptions ++
    [prettyOption, ⟨"input", some 'i', .text⟩, ⟨"syntax-only", none, .flag⟩,
      ⟨"default-limit", none, .number⟩, ⟨"max-limit", none, .number⟩,
      ⟨"ignore-top-eq", none, .list⟩]

def layoutOf (as : Arguments) : Json.Layout :=
  if as.has "pretty" then .indented else .compact

def limitOf (name : String) (as : Arguments) : Option Nat :=
  (as.valuesOf name).head?.bind Arguments.readCount?

/-- The only positional argument, which every command asks for. -/
def queryOf (as : Arguments) : Except Stop String :=
  match as.positional with
  | [query] => .ok query
  | _ => .error .usage

def readCheck (args : List String) : Except Stop Command := do
  let as ← Arguments.read checkOptions 1 none args {}
  return .check
    { query := ← queryOf as
      input := (as.valuesOf "input").head?
      syntaxOnly := as.has "syntax-only"
      options :=
        { defaultLimit := limitOf "default-limit" as
          maxLimit := limitOf "max-limit" as
          ignoreTopEq := (as.valuesOf "ignore-top-eq").flatMap fun value ↦
            (value.toList.splitOn ',').map String.ofList } }
    (layoutOf as)

def readParse (args : List String) : Except Stop Command := do
  let as ← Arguments.read (prettyOption :: globalOptions) 1 none args {}
  return .parse (← queryOf as) (layoutOf as)

def readNormalize (args : List String) : Except Stop Command := do
  let as ← Arguments.read globalOptions 1 none args {}
  return .normalize (← queryOf as)

/-- The commands with their readers. -/
def commands : List (String × (List String → Except Stop Command)) :=
  [("check", readCheck), ("parse", readParse), ("normalize", readNormalize)]

/-- Asks for help, on a command or on all of them. -/
def readHelp : List String → Stop
  | [] => .help
  | [name] => if name ∈ "help" :: commands.map Prod.fst then .help else .usage
  | _ => .usage

/-- Reads the arguments of the program: options for all commands, a command and its arguments. -/
def readCommand (as : Arguments) : List String → Except Stop Command
  | [] => .error .usage
  | arg :: rest =>
    if Arguments.isOption arg then do
      let specs := ⟨"version", some 'V', .version⟩ :: globalOptions
      let (as, _) ← Arguments.readOne specs 0 arg as
      readCommand as rest
    else if arg = "help" then .error (readHelp rest)
    else
      match commands.lookup arg with
      | some read => read rest
      | none => .error .usage

def versionText : String := "rql 0.2.0"

def usageText : String :=
  "Usage: rql [OPTIONS] <COMMAND>\n\nCommands:\n" ++
    "  check      Validate and execute an RQL query against a JSON array of objects\n" ++
    "  parse      Print the call-tree of a query as JSON\n" ++
    "  normalize  Print a query in canonical call form\n" ++
    "  help       Print this message or the help of the given subcommand(s)"

/-- What the program leaves behind. -/
structure Outcome where
  code : UInt32
  stdout : String := ""
  stderr : String := ""

namespace Outcome

def ofStop : Stop → Outcome
  | .usage => ⟨2, "", usageText ++ "\n"⟩
  | .help => ⟨0, usageText ++ "\n", ""⟩
  | .version => ⟨0, versionText ++ "\n", ""⟩

def ofCommand (command : Command) : Outcome :=
  match command.output with
  | .ok text => ⟨0, text ++ "\n", ""⟩
  | .error e => ⟨1, "", e.message ++ "\n"⟩

end Outcome

/-- The outcome for some arguments, where `input` stands for what can be read from the standard
input. -/
def run (args : List String) (input : String) : Outcome :=
  match readCommand {} args with
  | .error stop => .ofStop stop
  | .ok command => .ofCommand (if command.needsInput then command.withInput input else command)

end ResourceQuery.CommandLine
