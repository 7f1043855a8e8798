namespace RecordPath.Decimal

inductive Magnitude where
  | nan
  | infinite
  | zero
  /-- The positive number `mantissa * 2 ^ exponent`. -/
  | finite (mantissa : Nat) (exponent : Int)
  deriving DecidableEq, Repr

structure Parts where
  negative : Bool
  magnitude : Magnitude
  deriving DecidableEq, Repr

/-- The fields of the 64-bit format; a biased exponent of 0 marks the subnormal numbers, which
have no hidden leading bit. -/
def parts (x : Float) : Parts :=
  let bits := x.toBits.toNat
  let biased : Nat := bits / Nat.pow 2 52 % Nat.pow 2 11
  let fraction : Nat := bits % Nat.pow 2 52
  { negative := bits / Nat.pow 2 63 == 1
    magnitude :=
      if biased = 2047 then if fraction = 0 then .infinite else .nan
      else if biased = 0 then if fraction = 0 then .zero else .finite fraction (-1074)
      else .finite (fraction + Nat.pow 2 52) (Int.ofNat biased - 1075) }

def isFinite (x : Float) : Bool :=
  match (parts x).magnitude with
  | .zero | .finite .. => true
  | .nan | .infinite => false

end RecordPath.Decimal
