import RecordPath.Eval.Error
import RecordPath.Query.Printer
import RecordPath.Record.Value

namespace RecordPath

inductive SkipReason where
  | error (e : EvalError)
  /-- The expression has this type, which is no key of a list. -/
  | keyType (type : ScalarType)
  /-- A test yielded a value of this type. -/
  | yielded (type : ScalarType)

def SkipReason.text : SkipReason → String
  | error e => e.message
  | keyType t => t.name ++ " key"
  | yielded t => "predicate yielded " ++ t.name

/-- What a key step was applied to: a collection read from a field, or a single value. -/
inductive Place where
  | list (field : String)
  | map (field : String)
  | bytes (field : String)
  | single (kind : String)

def Place.text : Place → String
  | list field => field
  | map field => "map " ++ field
  | bytes field => "bytes " ++ field
  | single kind => kind

inductive Note where
  | compiled (text : String) (query : Query)
  | matched (query : Query) (typeName : String) (count : Nat)
  | missingKey (field : String) (key : MapKey)
  | dropped (index : Nat) (field : String) (e : EvalError)
  | skipped (expr : Expr) (place : Place) (reason : SkipReason)

namespace Note

def isSummary : Note → Bool
  | compiled .. | matched .. => true
  | missingKey .. | dropped .. | skipped .. => false

def text : Note → String
  | compiled text query => "compiled query '" ++ text ++ "' as '" ++ query.text ++ "'"
  | matched query typeName count =>
    "query '" ++ query.text ++ "' on " ++ typeName ++ " matched " ++ toString count ++ " value(s)"
  | missingKey field key => "map " ++ field ++ " has no key " ++ key.text
  | dropped index field e =>
    "element " ++ toString index ++ " of " ++ field ++ " dropped: " ++ e.message
  | skipped expr place reason =>
    "skipping [" ++ expr.text ++ "] on " ++ place.text ++ ": " ++ reason.text

end Note

end RecordPath
