import RecordPath.Decimal.Arithmetic
import RecordPath.Eval.Error
import RecordPath.Expr.Basic
import RecordPath.Record.Presence

namespace RecordPath

structure Context where
  /-- The value at hand. -/
  this : Value
  /-- Whether a scalar that is not present reads as its default. -/
  useDefault : Bool := false
  /-- Whether properties only tell if a field is present. -/
  presence : Bool := false
  /-- The place of the value at hand in the list that is being filtered. -/
  index : Option Nat := none
  /-- What sums, products and quotients of doubles are checked against. -/
  decimals : Decimals := .scaled

def Scalar.ofInt (n : Int) : Except EvalError Scalar :=
  match signed? n with
  | some w => .ok (.int w)
  | none => .error .overflow

/-- A scalar field in the form that expressions see, an ordinal by its name. -/
def MessageOf.scalar (m : Message) (f : Field) : Except EvalError Scalar :=
  match (m.stored? f).or f.default? with
  | none => .error (.propertyNotSet f.name)
  | some v =>
    match f.kind, v with
    | .enum e, .int ordinal =>
      match e.nameOf? ordinal with
      | some name => .ok (.string name)
      | none => .ok (.int ordinal)
    | _, _ =>
      match v.toScalar? with
      | some s => .ok s
      | none => .error (.typeMismatch (.noScalarForm f.name v.kindName))

namespace Context

def property (ctx : Context) (name : String) : Except EvalError Scalar :=
  match ctx.this with
  | .message m =>
    if name = "*" then .ok (.bool m.hasAny)
    else
      match m.type.field? name with
      | none => .error (.propertyNotSet name)
      | some f =>
        if ctx.presence then .ok (.bool (m.has f))
        else if !f.isScalar then .error (.typeMismatch (.notScalar f.name))
        else if !m.has f && !ctx.useDefault then .error (.propertyNotSet name)
        else m.scalar f
  | _ => .error .notARecord

def builtin (ctx : Context) (f : Builtin) : Except EvalError Scalar :=
  match f with
  | .length =>
    match ctx.this with
    | .list l => Scalar.ofInt l.items.length
    | .map m => Scalar.ofInt m.entries.length
    | .bytes bs => Scalar.ofInt bs.length
    | _ => .error (.unavailableFunction f.name)
  | .position =>
    match ctx.index with
    | some i => Scalar.ofInt i
    | none => .error (.unavailableFunction f.name)

end Context

end RecordPath
