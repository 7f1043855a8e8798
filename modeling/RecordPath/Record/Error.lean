namespace RecordPath

inductive RecordError where
  | unknownField (message field : String)
  | kindMismatch (field expected found : String)
  | duplicateField (message field : String)
  deriving DecidableEq, Repr

def RecordError.message : RecordError → String
  | unknownField message field => "message `" ++ message ++ "` has no field `" ++ field ++ "`"
  | kindMismatch field expected found =>
    "field `" ++ field ++ "` expects " ++ expected ++ ", got " ++ found
  | duplicateField message field =>
    "field `" ++ field ++ "` is declared twice in message `" ++ message ++ "`"

end RecordPath
