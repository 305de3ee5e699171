import TreeRules.Command
set_option autoImplicit false

open TreeRules

def main (args : List String) : IO UInt32 := do
  match Command.ofArgs? args with
  | none =>
    IO.eprintln Command.usage
    return 2
  | some command =>
    match command.run with
    | .ok lines =>
      lines.forM fun line => IO.println line
      return 0
    | .error e =>
      IO.eprintln e.message
      return 2
