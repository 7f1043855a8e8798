import RecordPath.Command.Outcome

def main (texts : List String) : IO UInt32 := do
  let reads := (RecordPath.Request.ofArguments texts).toOption.any RecordPath.Request.readsInput
  let stdin ← if reads then (← IO.getStdin).readToEnd else pure ""
  let outcome := RecordPath.Outcome.ofArguments texts stdin
  IO.print outcome.output
  IO.eprint outcome.errors
  return outcome.code
