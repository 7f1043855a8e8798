import RecordPath.Expr.Printer

namespace RecordPath

inductive Step where
  /-- The record that the query runs against. -/
  | root
  /-- The field of that name, or every field for `*`. -/
  | field (name : String)
  /-- The current record and every record below it. -/
  | descend
  /-- A filter, an index or a map key. -/
  | key (expr : Expr)
  /-- The current value. -/
  | self
  deriving DecidableEq, Repr

structure Path where
  steps : List Step
  deriving DecidableEq, Repr

/-- The matches of a query are those of its branches, one after the other. -/
structure Query where
  branches : List Path
  deriving DecidableEq, Repr

end RecordPath
