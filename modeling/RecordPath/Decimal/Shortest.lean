import RecordPath.Decimal.Double

namespace RecordPath.Decimal

inductive Tie where
  | up
  | even
  deriving DecidableEq, Repr

/-- The number `significand * 10 ^ exponent`. -/
structure Digits where
  significand : Nat
  exponent : Int
  deriving DecidableEq, Repr

/-- The reals that round to a double, as numerators over one denominator: `value` is the double
itself, and the ends belong to the interval iff `closed`. -/
structure Interval where
  low : Nat
  value : Nat
  high : Nat
  denominator : Nat
  closed : Bool

/-- Half the gap to either neighbour. Below a power of two the gap is half as wide, save at the
least exponent; the ends round to the even mantissa. -/
def Interval.around (mantissa : Nat) (exponent : Int) : Interval :=
  let narrow := mantissa = Nat.pow 2 52 ∧ exponent ≠ -1074
  let scale := Nat.pow 2 (exponent - 2).toNat
  { low := (4 * mantissa - if narrow then 1 else 2) * scale
    value := 4 * mantissa * scale
    high := (4 * mantissa + 2) * scale
    denominator := Nat.pow 2 (2 - exponent).toNat
    closed := mantissa % 2 = 0 }

/-- The point of the grid `10 ^ k` nearest to the value, among its two neighbours there that lie
in the interval. -/
def Interval.pick? (tie : Tie) (i : Interval) (k : Int) : Option Nat :=
  let stretch := Nat.pow 10 (-k).toNat
  let unit := Nat.pow 10 k.toNat * i.denominator
  let holds (point : Nat) : Bool :=
    if i.closed then i.low * stretch ≤ point * unit && point * unit ≤ i.high * stretch
    else i.low * stretch < point * unit && point * unit < i.high * stretch
  let below := i.value * stretch / unit
  let excess := i.value * stretch % unit
  match holds below, holds (below + 1) with
  | false, false => none
  | true, false => some below
  | false, true => some (below + 1)
  | true, true =>
    if 2 * excess < unit then some below
    else if unit < 2 * excess then some (below + 1)
    else if tie = .even ∧ below % 2 = 0 then some below
    else some (below + 1)

def Interval.leading (i : Interval) : Int :=
  let digits (n : Nat) : Int := (Nat.toDigits 10 n).length
  let e := digits i.value - digits i.denominator
  if Nat.pow 10 e.toNat * i.denominator ≤ i.value * Nat.pow 10 (-e).toNat then e else e - 1

def Interval.search (tie : Tie) (i : Interval) : Nat → Int → Digits
  | 0, k => ⟨i.value * Nat.pow 10 (-k).toNat / (Nat.pow 10 k.toNat * i.denominator), k⟩
  | n + 1, k =>
    match i.pick? tie k with
    | some d => ⟨d, k⟩
    | none => i.search tie n (k - 1)

/-- Seventeen digits tell any two doubles apart, so the search ends on a hit. -/
def shortest (tie : Tie) (mantissa : Nat) (exponent : Int) : Digits :=
  let i := Interval.around mantissa exponent
  i.search tie 17 i.leading

end RecordPath.Decimal
