import RecordPath.Command.Arguments
import RecordPath.Command.Manual

namespace RecordPath

structure Outcome where
  code : UInt32
  output : String
  errors : String
  deriving DecidableEq, Repr

def manualPage (name : String) : Except CommandError String :=
  match Topic.ofName? name with
  | some t => .ok t.page
  | none => .error (.unknownTopic name)

def CheckResult.text (pretty : Bool) : CheckResult → String
  | wellFormed => "Syntax is valid"
  | selected values => if pretty then values.pretty else values.compact

namespace Command

/-- The output of a command and what it tells about its course. A check without an input of its own
reads the standard one. -/
def result (stdin : String) : Command → Except CommandError (String × List Note)
  | check o => do
    let o := if o.compileOnly then o else { o with input := o.input.or (some stdin) }
    let (r, notes) ← o.result
    return (r.text o.pretty ++ "\n", notes)
  | format query =>
    match compile query with
    | .ok q => .ok (q.text ++ "\n", [.compiled query q])
    | .error e => .error (.compile e)
  | overview => .ok (RecordPath.overview, [])
  | topic name => do return (← manualPage name, [])

def readsInput : Command → Bool
  | check o => !o.compileOnly && o.input.isNone
  | _ => false

end Command

namespace Request

def usage : String :=
"Usage: protoquery [-v] <command>

Commands:
  check <query> [-i <json>] [-p] [--syntax-only]   Run a query on a JSON document
  fmt <query>                                      Print a query in canonical form
  docs                                             List documentation categories
  doc <category>                                   Show documentation for a category
"

def readsInput : Request → Bool
  | run _ command => command.readsInput
  | help | version => false

/-- Notes on single steps are left out, and all notes unless they are asked for. -/
def outcome (stdin : String) : Request → Outcome
  | help => ⟨0, usage, ""⟩
  | version => ⟨0, "protoquery 0.1.0\n", ""⟩
  | run verbose command =>
    match command.result stdin with
    | .ok (output, notes) =>
      let told := if verbose then notes.filter Note.isSummary else []
      ⟨0, output, String.join (told.map fun n => n.text ++ "\n")⟩
    | .error e => ⟨1, "", e.message ++ "\n"⟩

end Request

namespace Outcome

def ofUsageError (e : UsageError) : Outcome :=
  ⟨2, "", "error: " ++ e.message ++ "\n\n" ++ Request.usage⟩

/-- The code is 0 where all goes well, 1 for a fault in a query or its input, and 2 for arguments
that make no request. -/
def ofArguments (texts : List String) (stdin : String) : Outcome :=
  match Request.ofArguments texts with
  | .ok r => r.outcome stdin
  | .error e => ofUsageError e

end Outcome

end RecordPath
