import RecordPath.Decimal.Scaled

namespace RecordPath

/-- Decimal numbers of bounded size, with the doubles they are made of and turn back into. An
operation has no result where it leaves the bounds. -/
structure Decimals where
  Number : Type
  ofFloat? : Float → Option Number
  toFloat? : Number → Option Float
  add? : Number → Number → Option Number
  sub? : Number → Number → Option Number
  mul? : Number → Number → Option Number
  div? : Number → Number → Option Number

namespace Decimals

def scaled : Decimals where
  Number := Decimal.Scaled
  ofFloat? := Decimal.Scaled.ofFloat?
  toFloat? d := some d.toFloat
  add? := Decimal.Scaled.add?
  sub? := Decimal.Scaled.sub?
  mul? := Decimal.Scaled.mul?
  div? := Decimal.Scaled.div?

def tolerance : Float := 1 / Float.ofNat (Nat.pow 2 50)

variable (d : Decimals)

/-- The decimal number that a double stands for, if it turns back into just that double. -/
def sameValue? (x : Float) : Option d.Number :=
  (d.ofFloat? x).filter fun n => d.toFloat? n == some x

/-- The decimal result of an operation, if there is one within tolerance of the binary result, so
that a tenth and two tenths make three tenths. -/
def near (binary : Float) (op : d.Number → d.Number → Option d.Number) (a b : Float) : Float :=
  let decimal := do d.toFloat? (← op (← d.sameValue? a) (← d.sameValue? b))
  match decimal with
  | some x => if (x - binary).abs ≤ tolerance * binary.abs then x else binary
  | none => binary

def add (a b : Float) : Float := d.near (a + b) d.add? a b

def sub (a b : Float) : Float := d.near (a - b) d.sub? a b

def mul (a b : Float) : Float := d.near (a * b) d.mul? a b

def div (a b : Float) : Float := d.near (a / b) d.div? a b

end Decimals

end RecordPath
