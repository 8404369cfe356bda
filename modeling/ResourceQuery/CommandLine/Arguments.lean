import ResourceQuery.Text.Numeral

/-!
Arguments of a command: options with one dash or two, and positional arguments. Options of one
letter may share a dash, and the last of them may have its value attached. Behind `--` everything is
positional.
-/

set_option autoImplicit false

namespace ResourceQuery.CommandLine

inductive OptionKind where
  | help
  | version
  | flag
  | text
  | number
  /-- Texts with commas between them; the option may occur several times. -/
  | list
  deriving DecidableEq

namespace OptionKind

def takesValue : OptionKind → Bool
  | .text | .number | .list => true
  | _ => false

end OptionKind

structure OptionSpec where
  long : String
  short? : Option Char
  kind : OptionKind

/-- Why the reading of arguments ends early. -/
inductive Stop where
  | usage
  | help
  | version
  deriving DecidableEq

structure Arguments where
  /-- The long names of the options, with their values, in order. -/
  options : List (String × String) := []
  positional : List String := []

namespace Arguments

def has (name : String) (as : Arguments) : Bool :=
  as.options.any (·.1 == name)

def valuesOf (name : String) (as : Arguments) : List String :=
  (as.options.filter (·.1 == name)).map Prod.snd

/-- Digits with at most a plus sign before them, within sixty-four bits. -/
def readCount? (text : String) : Option Nat :=
  match text.toList with
  | [] | '-' :: _ => none
  | cs =>
    (Text.readInt? cs).bind fun n ↦ if n.natAbs < UInt64.size then some n.natAbs else none

/-- Adds an option. Only lists may occur twice, and a number must be one. -/
def addOption (spec : OptionSpec) (value : String) (as : Arguments) : Except Stop Arguments :=
  let added := { as with options := as.options ++ [(spec.long, value)] }
  match spec.kind with
  | .help => .error .help
  | .version => .error .version
  | .list => .ok added
  | .number =>
    if as.has spec.long || (readCount? value).isNone then .error .usage else .ok added
  | _ => if as.has spec.long then .error .usage else .ok added

/-- Adds a positional argument where there is room for one more. -/
def addPositional (room : Nat) (text : String) (as : Arguments) : Except Stop Arguments :=
  if as.positional.length < room then .ok { as with positional := as.positional ++ [text] }
  else .error .usage

/-- Reads an option behind its two dashes. One that still needs its value is given back. -/
def readLong (specs : List OptionSpec) (cs : List Char) (as : Arguments) :
    Except Stop (Arguments × Option OptionSpec) :=
  let attached? := (cs.dropWhile (· != '=')).tail?
  match specs.find? (·.long.toList == cs.takeWhile (· != '=')) with
  | none => .error .usage
  | some spec =>
    match attached?, spec.kind.takesValue with
    | some value, true => do return (← as.addOption spec (String.ofList value), none)
    | some _, false => .error .usage
    | none, true => .ok (as, some spec)
    | none, false => do return (← as.addOption spec "", none)

/-- Reads the letters behind a single dash. -/
def readShort (specs : List OptionSpec) :
    List Char → Arguments → Except Stop (Arguments × Option OptionSpec)
  | [], as => .ok (as, none)
  | c :: rest, as =>
    match specs.find? (·.short? == some c) with
    | none => .error .usage
    | some spec =>
      if spec.kind.takesValue then
        match rest with
        | [] => .ok (as, some spec)
        | '=' :: value | value => do return (← as.addOption spec (String.ofList value), none)
      else do readShort specs rest (← as.addOption spec "")

/-- Reads one argument that is not a value: an option, or a positional argument, for which `room` is
how many there may be. -/
def readOne (specs : List OptionSpec) (room : Nat) (arg : String) (as : Arguments) :
    Except Stop (Arguments × Option OptionSpec) :=
  match arg.toList with
  | '-' :: '-' :: cs => readLong specs cs as
  | '-' :: c :: cs => readShort specs (c :: cs) as
  | _ => do return (← as.addPositional room arg, none)

def isOption (arg : String) : Bool :=
  match arg.toList with
  | '-' :: _ :: _ => true
  | _ => false

/-- Reads arguments. Where the last option still needs its value, that is the next argument, which
must not look like an option. -/
def read (specs : List OptionSpec) (room : Nat) :
    Option OptionSpec → List String → Arguments → Except Stop Arguments
  | none, [], as => .ok as
  | some _, [], _ => .error .usage
  | some spec, arg :: rest, as => do
    if isOption arg then throw .usage
    read specs room none rest (← as.addOption spec arg)
  | none, arg :: rest, as => do
    if arg = "--" then rest.foldlM (fun as text ↦ as.addPositional room text) as
    else
      let (as, pending) ← readOne specs room arg as
      read specs room pending rest as

end Arguments

end ResourceQuery.CommandLine
