import RecordPath.Token.Basic

namespace RecordPath

inductive ScalarType where
  | bool
  | string
  | int
  | float
  deriving DecidableEq, Repr

namespace ScalarType

def name : ScalarType → String
  | bool => "bool"
  | string => "string"
  | int => "int"
  | float => "float"

def promote? : ScalarType → ScalarType → Option ScalarType
  | int, float | float, int => some float
  | a, b => if a = b then some a else none

end ScalarType

inductive Scalar where
  | bool (value : Bool)
  | string (value : String)
  | int (value : Int64)
  | float (value : Float)
  deriving DecidableEq, Repr

namespace Scalar

def type : Scalar → ScalarType
  | bool _ => .bool
  | string _ => .string
  | int _ => .int
  | float _ => .float

/-- A literal as a query spells it: floats keep a point, and a string takes the quotes that it
does not hold. -/
def literalText : Scalar → String
  | bool b => boolText b
  | int n => toString n.toInt
  | float x =>
    let text := queryFloat.text x
    if '.' ∈ text.toList then text else text ++ ".0"
  | string s => if '\'' ∈ s.toList then "\"" ++ s ++ "\"" else "'" ++ s ++ "'"

end Scalar

end RecordPath
