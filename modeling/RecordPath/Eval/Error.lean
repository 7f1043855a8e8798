import RecordPath.Expr.Operator
import RecordPath.Scalar

namespace RecordPath

inductive Mismatch where
  | operands (op : BinaryOp) (left right : ScalarType)
  | operand (op : UnaryOp) (type : ScalarType)
  | strings (op : BinaryOp)
  | connective (op : BinaryOp) (type : ScalarType)
  | notScalar (field : String)
  | noScalarForm (field kind : String)
  | index (type : ScalarType)
  | bytesIndex (type : ScalarType)
  deriving DecidableEq, Repr

def Mismatch.text : Mismatch → String
  | operands op l r => "cannot apply '" ++ op.text ++ "' to " ++ l.name ++ " and " ++ r.name
  | operand op t => "cannot apply '" ++ op.text ++ "' to " ++ t.name
  | strings op => "cannot apply '" ++ op.text ++ "' to strings"
  | connective op t => "'" ++ op.text ++ "' needs bool operands, got " ++ t.name
  | notScalar field => "field '" ++ field ++ "' is not a scalar"
  | noScalarForm field kind =>
    "field '" ++ field ++ "' holds " ++ kind ++ " which has no scalar form"
  | index t => "index must be int, got " ++ t.name
  | bytesIndex t => "bytes index must be int, got " ++ t.name

inductive EvalError where
  | propertyNotSet (name : String)
  | typeMismatch (mismatch : Mismatch)
  | invalidMapKey
  | indexOutOfRange
  | notARecord
  | unavailableFunction (name : String)
  | divisionByZero
  | overflow
  deriving DecidableEq, Repr

def EvalError.message : EvalError → String
  | propertyNotSet name => "property '" ++ name ++ "' is not set"
  | typeMismatch m => "type mismatch: " ++ m.text
  | invalidMapKey => "value cannot be used as a key of this map"
  | indexOutOfRange => "index out of range"
  | notARecord => "properties can only be read from a record"
  | unavailableFunction name => "function '" ++ name ++ "' is not available in this context"
  | divisionByZero => "division by zero"
  | overflow => "integer overflow"

end RecordPath
