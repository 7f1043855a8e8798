import RecordPath.Decimal.Double

namespace RecordPath.Decimal

/-- The number `mantissa / 10 ^ scale`, or its negative. -/
structure Scaled where
  negative : Bool
  mantissa : Nat
  scale : Nat
  deriving DecidableEq, Repr

def mantissaBound : Nat := Nat.pow 2 96

def scaleBound : Nat := 28

/-- Rounds a quotient with remainder `r` of a division by `d`; a half goes to the even number. -/
def roundHalfEven (q r d : Nat) : Nat :=
  if d < 2 * r ∨ (2 * r = d ∧ q % 2 = 1) then q + 1 else q

namespace Scaled

/-- Takes `n` factors of a half out of `m * 10 ^ e` exactly while the mantissa stays within its
bound, and then by shifting digits out of it. -/
def halve : Nat → Nat → Int → Nat × Int
  | 0, m, e => (m, e)
  | n + 1, m, e =>
    if m % 2 = 0 then halve n (m / 2) (e + 1)
    else if m * 5 < mantissaBound then halve n (m * 5) e
    else halve n (m / 2) (e + 1)

/-- Brings `n` factors of two into `m * 10 ^ e`, in exchange for factors of five where there is no
room for them. -/
def double : Nat → Nat → Int → Option (Nat × Int)
  | 0, m, e => some (m, e)
  | n + 1, m, e =>
    if m < Nat.pow 2 95 then double n (m * 2) (e - 1)
    else if (n + 1 : Int) < e * 2 then none
    else double n (m / 5) e

def enlarge : Nat → Nat → Option Nat
  | 0, m => some m
  | n + 1, m => if m * 10 < mantissaBound then enlarge n (m * 10) else none

/-- Drops digits until the scale is within its bound. Zero has scale zero. -/
def dropExcess (m : Nat) (scale : Nat) : Nat × Nat :=
  match scale with
  | 0 => (m, 0)
  | s + 1 =>
    if s + 1 ≤ scaleBound then (m, s + 1)
    else if m / 10 = 0 then (0, 0)
    else dropExcess (if 5 ≤ m % 10 then m / 10 + 1 else m / 10) s

def dropImprecise (m : Nat) (scale : Nat) : Nat × Nat :=
  match scale with
  | 0 => (m, 0)
  | s + 1 =>
    if m < Nat.pow 2 52 then (m, s + 1)
    else dropImprecise (if 5 ≤ m % 10 then m / 10 + 1 else m / 10) s

def dropZeros (m : Nat) (scale : Nat) : Nat × Nat :=
  match scale with
  | 0 => (m, 0)
  | s + 1 => if m % 10 = 0 then dropZeros (m / 10) s else (m, s + 1)

/-- The decimal number near a double, with about as many digits as a double has. -/
def ofFloat? (x : Float) : Option Scaled :=
  let p := parts x
  match p.magnitude with
  | .nan | .infinite => none
  | .zero => some ⟨p.negative, 0, 0⟩
  | .finite m q => do
    let (m, e) ←
      if q < 0 then some (halve (-q).toNat m q) else double q.toNat m q
    let m ← enlarge e.toNat m
    let (m, s) := dropExcess m (-e).toNat
    let (m, s) := dropImprecise m s
    let (m, s) := dropZeros m s
    some ⟨p.negative, m, s⟩

def floatPower (base acc : Float) (n : Nat) : Float :=
  let acc := if n % 2 = 1 then acc * base else acc
  if h : n < 2 then acc else floatPower (base * base) acc (n / 2)
termination_by n
decreasing_by omega

/-- The nearest whole number, for a double that is not negative; a half goes up. -/
def roundFloat (x : Float) : Float :=
  match (parts x).magnitude with
  | .finite m q =>
    if q < 0 then
      let d := Nat.pow 2 (-q).toNat
      Float.ofNat ((2 * m + d) / (2 * d))
    else x
  | _ => x

/-- The double for a decimal number: the sum of its whole and its fractional part, cut back to as
many places as the number has. -/
def toFloat (d : Scaled) : Float :=
  if d.scale = 0 then
    if d.negative ∧ d.mantissa ≠ 0 then -Float.ofNat d.mantissa else Float.ofNat d.mantissa
  else
    let unit := Nat.pow 10 d.scale
    let whole := Float.ofNat (d.mantissa / unit)
    let fraction := Float.ofNat (d.mantissa % unit) / Float.ofNat unit
    let v :=
      if fraction == 0 then whole
      else
        let power := floatPower 10 1 d.scale
        roundFloat ((whole + fraction) * power) / power
    if d.negative then -v else v

/-- Drops `k` digits, or the fewest above `k` that bring the number within bounds; a half goes to
the even number. -/
def fitFrom (m scale : Nat) (k : Nat) : Option (Nat × Nat) :=
  if h : scale < k then none
  else
    let q := m / Nat.pow 10 k
    let rounded := roundHalfEven q (m % Nat.pow 10 k) (Nat.pow 10 k)
    if q < mantissaBound ∧ rounded < mantissaBound then some (rounded, scale - k)
    else fitFrom m scale (k + 1)
termination_by scale + 1 - k

def fit (m scale : Nat) : Option (Nat × Nat) := fitFrom m scale (scale - scaleBound)

def signedValue (negative : Bool) (m : Nat) : Int := if negative then -m else m

def add? (a b : Scaled) : Option Scaled :=
  if a.mantissa = 0 then some b
  else if b.mantissa = 0 then some a
  else
    let s := max a.scale b.scale
    let v := signedValue a.negative (a.mantissa * Nat.pow 10 (s - a.scale)) +
      signedValue b.negative (b.mantissa * Nat.pow 10 (s - b.scale))
    if v = 0 then some ⟨false, 0, s⟩
    else (fit v.natAbs s).map fun (m, s) => ⟨v < 0, m, s⟩

def sub? (a b : Scaled) : Option Scaled :=
  add? a { b with negative := b.negative != decide (b.mantissa ≠ 0) }

def mul? (a b : Scaled) : Option Scaled :=
  if a.mantissa = 0 ∨ b.mantissa = 0 then some ⟨false, 0, 0⟩
  else (fit (a.mantissa * b.mantissa) (a.scale + b.scale)).map fun (m, s) =>
    ⟨a.negative != b.negative, m, s⟩

/-- A quotient that has outgrown the mantissa by a bit gives up its last digit; `sticky` tells
that something lies below that digit. -/
def overflow? (q : Nat) (scale : Int) (sticky : Bool) : Option (Nat × Int) :=
  if scale < 1 then none
  else
    let r := q % 10
    let q := q / 10
    some (if 5 < r ∨ (r = 5 ∧ (sticky ∨ q % 2 = 1)) then q + 1 else q, scale - 1)

def room (q : Nat) (scale : Int) : Nat → Nat
  | 0 => 0
  | n + 1 =>
    let x := room q scale n
    if x = n ∧ scale + n < scaleBound ∧ q * Nat.pow 10 (n + 1) < mantissaBound then n + 1 else x

theorem scale_add_room (q : Nat) (scale : Int) (n : Nat) (h : room q scale n ≠ 0) :
    scale + room q scale n ≤ scaleBound := by
  induction n with
  | zero => simp [room] at h
  | succ n ih =>
    simp only [room] at h ⊢
    split at h <;> rename_i hc
    · rw [if_pos hc]; omega
    · rw [if_neg hc]; exact ih h

/-- How many digits long division takes next: as many as there is room for, or, when nothing is
left of the dividend, as many as the scale is below zero. -/
def growth (q r : Nat) (scale : Int) : Nat :=
  if r = 0 then min 9 (-scale).toNat else room q scale 9

theorem scale_add_growth {q r : Nat} {scale : Int} (h : growth q r scale ≠ 0) :
    scale + growth q r scale ≤ scaleBound := by
  unfold growth at h ⊢
  split at h <;> rename_i hr
  · rw [if_pos hr]
    simp only [scaleBound]
    omega
  · rw [if_neg hr]
    exact scale_add_room q scale 9 h

/-- Long division by `d`, up to nine digits at a time. The quotient so far is `q / 10 ^ scale`, and
`r` is left of the dividend. The result tells whether a remainder has been met. -/
def divide (d q r : Nat) (scale : Int) (inexact : Bool) : Option (Nat × Int × Bool) :=
  let met := inexact || r ≠ 0
  if h : growth q r scale = 0 then
    if r ≠ 0 ∧ scale < 0 then none
    else
      let rounded := roundHalfEven q r d
      if rounded < mantissaBound then some (rounded, scale, met)
      else (overflow? rounded scale true).map fun (q, s) => (q, s, met)
  else
    let x := growth q r scale
    let q' := q * Nat.pow 10 x + r * Nat.pow 10 x / d
    let r' := r * Nat.pow 10 x % d
    if r ≠ 0 ∧ x < 9 ∧ scale + x < 0 ∨ mantissaBound ≤ q * Nat.pow 10 x then none
    else if mantissaBound ≤ q' then
      (overflow? q' (scale + x) (r' ≠ 0)).map fun (q, s) => (q, s, met)
    else
      have := scale_add_growth h
      divide d q' r' (scale + x) met
termination_by (scaleBound - scale).toNat

def strip (n : Nat) (m : Nat) (scale : Nat) : Nat × Nat :=
  if n ≤ scale ∧ m % Nat.pow 10 n = 0 then (m / Nat.pow 10 n, scale - n) else (m, scale)

/-- Drops zeros at the end, eight at a time where the low half-word is empty, and then what is left
of them. -/
def stripEights (m : Nat) (scale : Nat) : Nat × Nat :=
  if h : m % Nat.pow 2 32 = 0 ∧ 8 ≤ scale ∧ m % Nat.pow 10 8 = 0 then
    stripEights (m / Nat.pow 10 8) (scale - 8)
  else (m, scale)
termination_by scale

def div? (a b : Scaled) : Option Scaled :=
  if b.mantissa = 0 then none
  else if a.mantissa = 0 then some ⟨false, 0, 0⟩
  else do
    let (q, scale, inexact) ← divide b.mantissa (a.mantissa / b.mantissa)
      (a.mantissa % b.mantissa) (Int.ofNat a.scale - Int.ofNat b.scale) false
    let (q, s) :=
      if inexact then
        let (q, s) := stripEights q scale.toNat
        let (q, s) := strip 4 q s
        let (q, s) := strip 2 q s
        strip 1 q s
      else (q, scale.toNat)
    some ⟨q ≠ 0 && a.negative != b.negative, q, s⟩

end Scaled

end RecordPath.Decimal
