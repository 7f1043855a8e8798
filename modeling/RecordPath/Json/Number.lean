import RecordPath.Decimal.Double
import RecordPath.Json.Basic

namespace RecordPath.Json

structure NumberText where
  negative : Bool
  whole : List Char
  fraction : List Char
  exponent : Int
  /-- Whether there is neither a fraction nor an exponent. -/
  plain : Bool

/-- Gathers digits as long as the number fits a word; returns the digits that are left. -/
def gather (n : Nat) : List Char → Nat × List Char
  | [] => (n, [])
  | c :: rest =>
    let m := n * 10 + (c.toNat - '0'.toNat)
    if m < Nat.pow 2 64 then gather m rest else (n, c :: rest)

/-- Multiplies by a power of ten in one rounding, where the power is a double. Smaller numbers are
divided by the greatest such power first; greater ones have no double. -/
def scale (x : Float) (exponent : Int) : Option Float :=
  if 0 ≤ exponent then
    if exponent ≤ 308 then
      let y := x * Float.ofScientific 1 false exponent.toNat
      if Decimal.isFinite y then some y else none
    else if x == 0 then some x
    else none
  else if -308 ≤ exponent then some (x / Float.ofScientific 1 false (-exponent).toNat)
  else if x == 0 then some x
  else scale (x / Float.ofScientific 1 false 308) (exponent + 308)
termination_by (-exponent).toNat

/-- An integer, if it fits a 64-bit word and is not a negative zero, or else a double. -/
def NumberText.value? (t : NumberText) : Option JsonNumber :=
  let (n, unread) := gather 0 t.whole
  let (m, left) := gather n t.fraction
  let exponent := t.exponent + unread.length - (t.fraction.length - left.length : Nat)
  if t.plain ∧ unread.isEmpty ∧ (!t.negative ∨ (0 < n ∧ n ≤ Nat.pow 2 63)) then
    some (.integer (if t.negative then -n else n))
  else
    (scale (Float.ofNat m) exponent).map fun x => .float (if t.negative then -x else x)

def takeDigits? (cs : List Char) : Option (List Char × List Char) :=
  let digits := cs.takeWhile Char.isDigit
  if digits.isEmpty then none else some (digits, cs.dropWhile Char.isDigit)

/-- The whole part of a number has no zero in front of other digits. -/
def takeWhole? (cs : List Char) : Option (List Char × List Char) :=
  match takeDigits? cs with
  | some ('0' :: _ :: _, _) => none
  | r => r

def takeFraction? : List Char → Option (List Char × List Char)
  | '.' :: rest => takeDigits? rest
  | cs => some ([], cs)

def takeExponent? : List Char → Option (Int × List Char)
  | c :: rest =>
    if c = 'e' ∨ c = 'E' then
      match rest with
      | '-' :: rest => (takeDigits? rest).map fun (d, r) => (-Nat.ofDigitChars 10 d 0, r)
      | '+' :: rest => (takeDigits? rest).map fun (d, r) => (Nat.ofDigitChars 10 d 0, r)
      | rest => (takeDigits? rest).map fun (d, r) => (Nat.ofDigitChars 10 d 0, r)
    else some (0, c :: rest)
  | [] => some (0, [])

def takeUnsigned? (negative : Bool) (cs : List Char) : Option (NumberText × List Char) := do
  let (whole, afterWhole) ← takeWhole? cs
  let (fraction, afterFraction) ← takeFraction? afterWhole
  let (exponent, rest) ← takeExponent? afterFraction
  let plain := rest.length == afterWhole.length
  return ({ negative, whole, fraction, exponent, plain }, rest)

def takeNumber? (cs : List Char) : Option (NumberText × List Char) :=
  match cs with
  | '-' :: rest => takeUnsigned? true rest
  | cs => takeUnsigned? false cs

theorem length_takeDigits? {cs digits rest : List Char} (h : takeDigits? cs = some (digits, rest)) :
    rest.length < cs.length := by
  unfold takeDigits? at h
  dsimp only at h
  split at h <;> cases h
  rename_i hd
  have hl := congrArg List.length (List.takeWhile_append_dropWhile (p := Char.isDigit) (l := cs))
  rw [List.length_append] at hl
  have : 0 < (cs.takeWhile Char.isDigit).length := by
    rw [List.length_pos_iff]
    simpa using hd
  omega

theorem length_takeWhole? {cs digits rest : List Char} (h : takeWhole? cs = some (digits, rest)) :
    rest.length < cs.length := by
  unfold takeWhole? at h
  split at h
  · cases h
  · exact length_takeDigits? h

theorem length_takeFraction? {cs digits rest : List Char}
    (h : takeFraction? cs = some (digits, rest)) : rest.length ≤ cs.length := by
  unfold takeFraction? at h
  split at h
  · have := length_takeDigits? h
    simp only [List.length_cons]
    omega
  · cases h; exact Nat.le_refl _

theorem length_takeExponent? {cs rest : List Char} {n : Int}
    (h : takeExponent? cs = some (n, rest)) : rest.length ≤ cs.length := by
  unfold takeExponent? at h
  split at h
  · split at h
    · split at h <;> obtain ⟨⟨d, r⟩, hd, he⟩ := Option.map_eq_some_iff.1 h <;> cases he <;>
        have := length_takeDigits? hd <;> simp only [List.length_cons] at this ⊢ <;> omega
    · cases h; exact Nat.le_refl _
  · cases h; exact Nat.le_refl _

theorem length_takeUnsigned? {negative : Bool} {cs rest : List Char} {t : NumberText}
    (h : takeUnsigned? negative cs = some (t, rest)) : rest.length < cs.length := by
  simp only [takeUnsigned?, Option.bind_eq_bind, Option.bind_eq_some_iff] at h
  obtain ⟨⟨whole, r₁⟩, h₁, ⟨fraction, r₂⟩, h₂, ⟨exponent, r₃⟩, h₃, h⟩ := h
  cases h
  have := length_takeWhole? h₁
  have := @length_takeFraction? r₁ _ _ h₂
  have := @length_takeExponent? r₂ _ _ h₃
  show r₃.length < cs.length
  omega

theorem length_takeNumber? {cs rest : List Char} {t : NumberText}
    (h : takeNumber? cs = some (t, rest)) : rest.length < cs.length := by
  unfold takeNumber? at h
  split at h
  · have := length_takeUnsigned? h
    simp only [List.length_cons]
    omega
  · exact length_takeUnsigned? h

end RecordPath.Json
