import ResourceQuery.CommandLine.Command

/-!
The program `rql`. The standard input is read only by a command that needs it, and not from a
terminal.
-/

set_option autoImplicit false

open ResourceQuery.CommandLine in
def main (args : List String) : IO UInt32 := do
  let outcome ←
    match readCommand {} args with
    | .error stop => pure (Outcome.ofStop stop)
    | .ok command =>
      let stdin ← IO.getStdin
      if command.needsInput && !(← stdin.isTty) then
        pure (Outcome.ofCommand (command.withInput (← stdin.readToEnd)))
      else pure (Outcome.ofCommand command)
  (← IO.getStdout).putStr outcome.stdout
  (← IO.getStderr).putStr outcome.stderr
  return outcome.code
