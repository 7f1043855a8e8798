import RecordPath.Json.Conversion
import RecordPath.Json.Reader
import RecordPath.Json.Rendering
import RecordPath.Search.Run

namespace RecordPath

inductive CommandError where
  | compile (e : CompileError)
  | record (e : RecordError)
  | malformedJson
  | noInput
  | unknownTopic (name : String)
  | unsupported (cause : Unsupported)
  deriving DecidableEq, Repr

namespace CommandError

def ofConversion : ConversionError → CommandError
  | .unsupported cause => unsupported cause
  | .record e => record e

def message : CommandError → String
  | compile e => "Compile error: " ++ e.message
  | record e => "Record error: " ++ e.message
  | malformedJson => "Invalid JSON: "
  | noInput => "No input provided. Use --input or pipe JSON to stdin."
  | unknownTopic name =>
    "Unknown category: '" ++ name ++ "'\nRun 'protoquery docs' to see available categories."
  | unsupported cause => "Unsupported JSON: " ++ cause.message

end CommandError

structure CheckOptions where
  query : String
  input : Option String := none
  pretty : Bool := false
  /-- Whether the query is only compiled. -/
  compileOnly : Bool := false
  deriving DecidableEq, Repr

inductive CheckResult where
  | wellFormed
  /-- What the query selects, as one JSON array. -/
  | selected (values : Json)
  deriving Repr

/-- The record that a JSON text stands for, and the first identity that it leaves free. -/
def recordOfText (text : String) : Except CommandError (Message × Nat) :=
  match Json.read? text with
  | none => .error .malformedJson
  | some j =>
    match j.toRecord 0 with
    | .ok r => .ok r
    | .error e => .error (.ofConversion e)

def Findings.toJson (f : Findings) : Json := .array (f.values.map Value.toJson)

/-- Compiles a query and, unless that is all, runs it on the input. The query is at fault before
the input is. -/
def CheckOptions.result (o : CheckOptions) : Except CommandError (CheckResult × List Note) :=
  match compile o.query with
  | .error e => .error (.compile e)
  | .ok q =>
    let compiled := Note.compiled o.query q
    if o.compileOnly then .ok (.wellFormed, [compiled])
    else
      match o.input with
      | none => .error .noInput
      | some text => do
        let (root, supply) ← recordOfText text
        let found := ((q.findAll root).run supply).1
        return (.selected found.toJson, compiled :: found.notes)

end RecordPath
