import RecordPath.Eval.Context

namespace RecordPath

def Field.scalarType (f : Field) : Except EvalError ScalarType :=
  if f.cardinality = .single then
    match f.kind with
    | .bool => .ok .bool
    | .string | .bytes | .enum _ => .ok .string
    | .int | .uint => .ok .int
    | .float => .ok .float
    | .message _ => .error (.typeMismatch (.notScalar f.name))
  else .error (.typeMismatch (.notScalar f.name))

/-- The record whose declarations count: the value at hand, or the first record of a list. -/
def Context.record? (ctx : Context) : Option Message :=
  match ctx.this with
  | .message m => some m
  | .list l => l.items.findSome? Value.toMessage?
  | _ => none

def Context.propertyType (ctx : Context) (name : String) : Except EvalError ScalarType :=
  match ctx.record? with
  | none => .error .notARecord
  | some m =>
    if name = "*" then .ok .bool
    else
      match m.type.field? name with
      | none => .error (.propertyNotSet name)
      | some f => if ctx.presence then .ok .bool else f.scalarType

namespace Expr

def typeIn : Expr → Context → Except EvalError ScalarType
  | literal v, _ => .ok v.type
  | property name, ctx => ctx.propertyType name
  | call _ _, _ => .ok .int
  | unary op e, ctx => do
    match op, ← e.typeIn ctx with
    | .not, .bool => .ok .bool
    | .plus, .int | .minus, .int => .ok .int
    | op, t => .error (.typeMismatch (.operand op t))
  | binary (.connect _) _ _, _ | binary (.compare _) _ _, _ => .ok .bool
  | binary (.compute op) l r, ctx => do
    let s ← l.typeIn ctx
    let t ← r.typeIn ctx
    match s.promote? t with
    | none | some .bool => .error (.typeMismatch (.operands (.compute op) s t))
    | some .string =>
      if op = .add then .ok .string else .error (.typeMismatch (.strings (.compute op)))
    | some t => .ok t
termination_by structural e => e

end Expr

end RecordPath
