import IntegerDomains.Calculator

/-- Run the calculator and exit with its status. -/
def main (args : List String) : IO UInt32 := do
  let outcome := IntegerDomains.Calculator.run args
  for line in outcome.lines do
    IO.println line
  match outcome.problem with
  | some problem => IO.eprintln problem
  | none => pure ()
  return outcome.status
