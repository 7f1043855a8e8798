import RecordPath.Decimal.Shortest

namespace RecordPath.Decimal

structure Layout where
  tie : Tie
  /-- The exponents of a leading digit that are written without an exponent part. -/
  isPositional : Int → Bool
  /-- Whether a whole number ends in `.0` when it has no exponent part. -/
  pointsWhole : Bool
  /-- Whether an exponent that is not negative has a plus sign. -/
  plus : Bool

def Layout.positional (l : Layout) (digits : List Char) (e : Int) : List Char :=
  if e < 0 then '0' :: '.' :: List.replicate (-e - 1).toNat '0' ++ digits
  else
    let whole := digits.take (e + 1).toNat
    let fraction := digits.drop (e + 1).toNat
    let padding := List.replicate ((e + 1).toNat - digits.length) '0'
    whole ++ padding ++
      if fraction.isEmpty then if l.pointsWhole then ['.', '0'] else []
      else '.' :: fraction

def Layout.scientific (l : Layout) (digits : List Char) (e : Int) : List Char :=
  digits.take 1 ++ (if digits.length ≤ 1 then [] else '.' :: digits.drop 1) ++
    'e' :: (if 0 ≤ e ∧ l.plus then ['+'] else []) ++ (toString e).toList

/-- Zeros at the end of the significand say nothing and are dropped. -/
def Layout.magnitude (l : Layout) (d : Digits) : List Char :=
  let all := Nat.toDigits 10 d.significand
  let digits := (all.reverse.dropWhile (· == '0')).reverse
  let e : Int := all.length - 1 + d.exponent
  if l.isPositional e then l.positional digits e else l.scientific digits e

def Layout.text (l : Layout) (x : Float) : String :=
  let p := parts x
  let sign := if p.negative then ['-'] else []
  match p.magnitude with
  | .nan => "NaN"
  | .infinite => String.ofList (sign ++ ['i', 'n', 'f'])
  | .zero => String.ofList (sign ++ l.positional ['0'] 0)
  | .finite m q => String.ofList (sign ++ l.magnitude (shortest l.tie m q))

end RecordPath.Decimal
