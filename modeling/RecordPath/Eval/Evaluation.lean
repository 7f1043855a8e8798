import RecordPath.Eval.Context

namespace RecordPath

namespace Comparison

def isEquality (c : Comparison) : Bool := c matches equal | notEqual

/-- Whether a comparison holds of two values in the given order; a NaN is in none. -/
def holds (c : Comparison) (order : Option Ordering) : Bool :=
  match c with
  | equal => order = some .eq
  | notEqual => order ≠ some .eq
  | less => order = some .lt
  | greater => order = some .gt
  | lessEqual => order = some .lt || order = some .eq
  | greaterEqual => order = some .gt || order = some .eq

end Comparison

def floatOrder (a b : Float) : Option Ordering :=
  if a < b then some .lt
  else if b < a then some .gt
  else if a == b then some .eq
  else none

namespace Scalar

def toFloat? : Scalar → Option Float
  | int n => some (Float.ofInt n.toInt)
  | float x => some x
  | bool _ | string _ => none

/-- Compares values of one type, or an integer with a double. Of booleans only equality is
decided. -/
def compare (c : Comparison) (a b : Scalar) : Except EvalError Bool :=
  let mismatch := EvalError.typeMismatch (.operands (.compare c) a.type b.type)
  match a, b with
  | int m, int n => .ok (c.holds (some (Ord.compare m.toInt n.toInt)))
  | string s, string t => .ok (c.holds (some (Ord.compare s t)))
  | bool p, bool q =>
    if c.isEquality then .ok (c.holds (some (Ord.compare p q))) else .error mismatch
  | _, _ =>
    match a.toFloat?, b.toFloat? with
    | some x, some y => .ok (c.holds (floatOrder x y))
    | _, _ => .error mismatch

def computeInt (op : Arithmetic) (m n : Int64) : Except EvalError Scalar :=
  match op with
  | .add => ofInt (m.toInt + n.toInt)
  | .subtract => ofInt (m.toInt - n.toInt)
  | .multiply => ofInt (m.toInt * n.toInt)
  | .divide => if n = 0 then .error .divisionByZero else ofInt (m.toInt.tdiv n.toInt)

def computeFloat (d : Decimals) (op : Arithmetic) (x y : Float) : Except EvalError Scalar :=
  match op with
  | .add => .ok (float (d.add x y))
  | .subtract => .ok (float (d.sub x y))
  | .multiply => .ok (float (d.mul x y))
  | .divide => if y == 0 then .error .divisionByZero else .ok (float (d.div x y))

/-- Integers stay integers; with a double they become doubles. Strings can be joined. -/
def compute (d : Decimals) (op : Arithmetic) (a b : Scalar) : Except EvalError Scalar :=
  let mismatch := EvalError.typeMismatch (.operands (.compute op) a.type b.type)
  match a, b with
  | string s, string t => if op = .add then .ok (string (s ++ t)) else .error mismatch
  | int m, int n => computeInt op m n
  | _, _ =>
    match a.toFloat?, b.toFloat? with
    | some x, some y => computeFloat d op x y
    | _, _ => .error mismatch

def applyUnary (op : UnaryOp) (v : Scalar) : Except EvalError Scalar :=
  match op, v with
  | .not, bool b => .ok (bool !b)
  | .plus, int n => .ok (int n)
  | .minus, int n => ofInt (-n.toInt)
  | _, _ => .error (.typeMismatch (.operand op v.type))

def truth (op : Connective) : Scalar → Except EvalError Bool
  | bool b => .ok b
  | v => .error (.typeMismatch (.connective (.connect op) v.type))

end Scalar

/-- The truth value that settles a connective, whatever its other operand. -/
def Connective.absorbing : Connective → Bool
  | .and => false
  | .or => true

namespace Expr

/-- The left operand comes first. A connective that it settles never looks at the right one, and
an equality reads what is not present as its default. -/
def eval : Expr → Context → Except EvalError Scalar
  | literal v, _ => .ok v
  | property name, ctx => ctx.property name
  | call f _, ctx => ctx.builtin f
  | unary op e, ctx => do Scalar.applyUnary op (← e.eval ctx)
  | binary (.connect op) l r, ctx => do
    let p ← Scalar.truth op (← l.eval ctx)
    if p = op.absorbing then .ok (.bool p)
    else return .bool (← Scalar.truth op (← r.eval ctx))
  | binary (.compare op) l r, ctx => do
    let ctx := if op.isEquality then { ctx with useDefault := true } else ctx
    let a ← l.eval ctx
    let b ← r.eval ctx
    return .bool (← Scalar.compare op a b)
  | binary (.compute op) l r, ctx => do
    let a ← l.eval ctx
    let b ← r.eval ctx
    Scalar.compute ctx.decimals op a b
termination_by structural e => e

end Expr

end RecordPath
