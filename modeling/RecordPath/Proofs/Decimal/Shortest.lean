import RecordPath.Decimal.Shortest
import RecordPath.Proofs.Decimal.Rounding

namespace RecordPath.Decimal

def Digits.value (d : Digits) : ℚ := d.significand * 10 ^ d.exponent

namespace Interval

variable {i : Interval} {tie : Tie} {k : ℤ} {n p : ℕ}

def Contains (i : Interval) (v : ℚ) : Prop :=
  if i.closed then i.low / i.denominator ≤ v ∧ v ≤ i.high / i.denominator
  else i.low / i.denominator < v ∧ v < i.high / i.denominator

def holds (i : Interval) (k : ℤ) (point : ℕ) : Bool :=
  let stretch := Nat.pow 10 (-k).toNat
  let unit := Nat.pow 10 k.toNat * i.denominator
  if i.closed then i.low * stretch ≤ point * unit && point * unit ≤ i.high * stretch
  else i.low * stretch < point * unit && point * unit < i.high * stretch

/-- The point of the grid `10 ^ k` next below the value. -/
def below (i : Interval) (k : ℤ) : ℕ :=
  i.value * Nat.pow 10 (-k).toNat / (Nat.pow 10 k.toNat * i.denominator)

theorem lt_pow_length (n : ℕ) : n < 10 ^ (Nat.toDigits 10 n).length :=
  (Nat.length_toDigits_le_iff (by decide) Nat.length_toDigits_pos).1 le_rfl

theorem pow_pred_length_le (hn : 0 < n) : 10 ^ ((Nat.toDigits 10 n).length - 1) ≤ n := by
  by_cases hone : (Nat.toDigits 10 n).length - 1 = 0
  · rw [hone]
    exact hn
  · have hlt := (Nat.length_toDigits_le_iff (b := 10) (n := n) (by decide)
      (Nat.pos_of_ne_zero hone)).not
    omega

theorem cast_unit (i : Interval) (p : ℕ) (k : ℤ) :
    ((p * (Nat.pow 10 k.toNat * i.denominator) : ℕ) : ℚ) =
      p * 10 ^ k * (i.denominator * 10 ^ (-k).toNat) := by
  have hpow : (10 : ℚ) ^ k * 10 ^ (-k).toNat = 10 ^ k.toNat := by
    rw [← zpow_natCast, ← zpow_natCast, ← zpow_add₀ (by norm_num)]
    congr 1
    omega
  rw [Nat.pow_eq]
  push_cast
  linear_combination -(p * i.denominator : ℚ) * hpow

section Grid

variable (hd : 0 < i.denominator)
include hd

theorem cast_stretch (a : ℕ) (k : ℤ) :
    ((a * Nat.pow 10 (-k).toNat : ℕ) : ℚ) =
      a / i.denominator * (i.denominator * 10 ^ (-k).toNat) := by
  have hne : (i.denominator : ℚ) ≠ 0 := by exact_mod_cast hd.ne'
  rw [Nat.pow_eq]
  push_cast
  field_simp

theorem common_pos (k : ℤ) : (0 : ℚ) < i.denominator * 10 ^ (-k).toNat :=
  mul_pos (by exact_mod_cast hd) (by positivity)

theorem contains_of_holds (h : i.holds k p = true) : i.Contains (p * 10 ^ k) := by
  have hpos := common_pos hd k
  unfold holds at h
  dsimp only at h
  unfold Contains
  split_ifs at h ⊢
  · simp only [Bool.and_eq_true, decide_eq_true_eq, ← Nat.cast_le (α := ℚ), cast_stretch hd,
      cast_unit, mul_le_mul_iff_left₀ hpos] at h
    exact h
  · simp only [Bool.and_eq_true, decide_eq_true_eq, ← Nat.cast_lt (α := ℚ), cast_stretch hd,
      cast_unit, mul_lt_mul_iff_left₀ hpos] at h
    exact h

theorem below_bounds (k : ℤ) :
    i.below k * 10 ^ k ≤ (i.value / i.denominator : ℚ) ∧
      (i.value / i.denominator : ℚ) < (i.below k + 1) * 10 ^ k := by
  have hpos := common_pos hd k
  have hunit : 0 < Nat.pow 10 k.toNat * i.denominator :=
    Nat.mul_pos (Nat.pow_pos (by decide)) hd
  constructor
  · rw [← mul_le_mul_iff_left₀ hpos, ← cast_unit, ← cast_stretch hd, Nat.cast_le]
    exact Nat.div_mul_le_self _ _
  · have hcast := cast_unit i (i.below k + 1) k
    push_cast at hcast
    rw [← mul_lt_mul_iff_left₀ hpos, ← hcast, ← cast_stretch hd]
    exact_mod_cast Nat.lt_mul_of_div_lt (Nat.lt_succ_self _) hunit

theorem ten_zpow_leading_le (hv : 0 < i.value) :
    (10 : ℚ) ^ i.leading ≤ i.value / i.denominator := by
  have hpos := common_pos hd
  unfold leading
  dsimp only
  split_ifs with h
  · generalize ((Nat.toDigits 10 i.value).length - (Nat.toDigits 10 i.denominator).length : ℤ) = e
      at h ⊢
    rw [← one_mul (Nat.pow 10 e.toNat * i.denominator), ← Nat.cast_le (α := ℚ), cast_unit,
      cast_stretch hd, mul_le_mul_iff_left₀ (hpos e), Nat.cast_one, one_mul] at h
    exact h
  · have hvalue := pow_pred_length_le hv
    have hlength := Nat.length_toDigits_pos (b := 10) (n := i.value)
    have hdenominator := (lt_pow_length i.denominator).le
    generalize (Nat.toDigits 10 i.value).length = a at hvalue hlength ⊢
    generalize (Nat.toDigits 10 i.denominator).length = b at hdenominator ⊢
    have hsplit : (a - b - 1 : ℤ) = (a - 1 : ℕ) - (b : ℕ) := by omega
    have hd' : (0 : ℚ) < i.denominator := by exact_mod_cast hd
    rw [hsplit, zpow_sub₀ (by norm_num), zpow_natCast, zpow_natCast]
    gcongr
    · exact_mod_cast hvalue
    · exact_mod_cast hdenominator

end Grid

theorem holds_of_pick? (h : i.pick? tie k = some p) : i.holds k p = true := by
  unfold pick? at h
  dsimp only at h
  split at h
  · cases h
  · cases h
    assumption
  · cases h
    assumption
  · split_ifs at h <;> cases h <;> assumption

/-- The search ends on a point of the interval, or next below the value on the finest grid. -/
theorem search_cases (i : Interval) (tie : Tie) (n : ℕ) (k : ℤ) :
    i.holds (i.search tie n k).exponent (i.search tie n k).significand = true ∨
      i.search tie n k = ⟨i.below (k - n), k - n⟩ := by
  induction n generalizing k with
  | zero =>
    rw [Nat.cast_zero, sub_zero]
    exact .inr rfl
  | succ n ih =>
    rw [search]
    cases hpick : i.pick? tie k with
    | some p => exact .inl (holds_of_pick? hpick)
    | none =>
      have hk : k - 1 - n = k - (n + 1 : ℕ) := by omega
      rw [← hk]
      exact ih (k - 1)

section Around

variable {m : ℕ} {q : ℤ} {v : ℚ}

theorem denominator_around_pos (m : ℕ) (q : ℤ) : 0 < (around m q).denominator :=
  Nat.pow_pos (by decide)

theorem scale_div_denominator (a : ℕ) (q : ℤ) :
    ((a * Nat.pow 2 (q - 2).toNat : ℕ) / Nat.pow 2 (2 - q).toNat : ℚ) = a * (2 ^ q / 4) := by
  have hpow : (2 : ℚ) ^ (q - 2).toNat / 2 ^ (2 - q).toNat = 2 ^ q / 4 := by
    have hsub : (2 : ℚ) ^ (q - 2) = 2 ^ q / 4 := by
      rw [zpow_sub₀ two_ne_zero]
      norm_num
    rw [← hsub, ← zpow_natCast, ← zpow_natCast, ← zpow_sub₀ two_ne_zero]
    congr 1
    omega
  rw [Nat.pow_eq, Nat.pow_eq]
  push_cast
  rw [mul_div_assoc, hpow]

/-- The interval holds only numbers that round to the double. -/
theorem roundsTo_of_contains (hm : 0 < m) (h : (around m q).Contains v) : RoundsTo m q v := by
  have hq : (0 : ℚ) < 2 ^ q := zpow_pos two_pos q
  have hlow : ((around m q).low / (around m q).denominator : ℚ) =
      (4 * m - if IsNarrow m q then 1 else 2) * (2 ^ q / 4) := by
    refine (scale_div_denominator _ q).trans ?_
    change ((4 * m - if IsNarrow m q then 1 else 2 : ℕ) : ℚ) * _ = _
    rw [Nat.cast_sub (by split_ifs <;> omega)]
    push_cast
    rfl
  have hhigh : ((around m q).high / (around m q).denominator : ℚ) = (4 * m + 2) * (2 ^ q / 4) := by
    refine (scale_div_denominator _ q).trans ?_
    push_cast
    rfl
  have hunits : v = 4 * (v / 2 ^ q) * (2 ^ q / 4) := by field_simp
  have hquarter : (0 : ℚ) < 2 ^ q / 4 := by positivity
  have hclosed : (around m q).closed = decide (m % 2 = 0) := rfl
  unfold Contains at h
  rw [hlow, hhigh, hunits, hclosed] at h
  simp only [mul_le_mul_iff_left₀ hquarter, mul_lt_mul_iff_left₀ hquarter] at h
  by_cases heven : m % 2 = 0
  · rw [if_pos (decide_eq_true heven)] at h
    exact ⟨h.1, h.2, fun hodd => by omega⟩
  · -- an odd mantissa is no power of two
    have hwide : ¬ IsNarrow m q := fun hn => by
      have := hn.1
      omega
    rw [if_neg (by simpa using heven), if_neg hwide] at h
    refine ⟨?_, h.2.le, fun _ => h⟩
    rw [if_neg hwide]
    exact h.1.le

end Around

end Interval

/-- Seventeen digits below the leading one, a grid is finer than the gap between two doubles. -/
theorem roundsTo_below {m : ℕ} {q : ℤ} (hc : Canonical m q) :
    let i := Interval.around m q
    RoundsTo m q (i.below (i.leading - 17) * 10 ^ (i.leading - 17)) := by
  intro i
  have hd := Interval.denominator_around_pos m q
  have hq : (0 : ℚ) < 2 ^ q := zpow_pos two_pos q
  have hm : (m : ℚ) < 2 ^ 53 := by exact_mod_cast hc.lt
  have hvalue : (i.value / i.denominator : ℚ) = m * 2 ^ q := by
    refine (Interval.scale_div_denominator (4 * m) q).trans ?_
    push_cast
    ring
  have hpos : 0 < i.value :=
    Nat.mul_pos (Nat.mul_pos (by decide) hc.pos) (Nat.pow_pos (by decide))
  have hleading := Interval.ten_zpow_leading_le hd hpos
  obtain ⟨hlow, hhigh⟩ := Interval.below_bounds hd (i.leading - 17)
  have hgrid : (10 : ℚ) ^ (i.leading - 17) < 2 ^ q / 4 := by
    rw [zpow_sub₀ (by norm_num), div_lt_iff₀ (by positivity)]
    calc
      (10 : ℚ) ^ i.leading ≤ m * 2 ^ q := hvalue ▸ hleading
      _ < 2 ^ 53 * 2 ^ q := by gcongr
      _ ≤ 2 ^ q / 4 * 10 ^ (17 : ℤ) := by linarith
  rw [hvalue] at hlow hhigh
  generalize (10 : ℚ) ^ (i.leading - 17) = unit at hlow hhigh hgrid ⊢
  generalize (i.below (i.leading - 17) : ℚ) = p at hlow hhigh ⊢
  have hlow' : p * unit / 2 ^ q ≤ m := (div_le_iff₀ hq).2 hlow
  have hhigh' : m - 1 / 4 < p * unit / 2 ^ q := (lt_div_iff₀ hq).2 (by linarith)
  refine ⟨?_, ?_, fun _ => ⟨?_, ?_⟩⟩
  · split_ifs <;> linarith
  all_goals linarith

/-- The shortest digits of a double stand for a number that rounds to it. -/
theorem roundsTo_shortest {m : ℕ} {q : ℤ} (tie : Tie) (hc : Canonical m q) :
    RoundsTo m q (shortest tie m q).value := by
  have hd := Interval.denominator_around_pos m q
  unfold shortest Digits.value
  obtain h | h := (Interval.around m q).search_cases tie 17 (Interval.around m q).leading
  · exact Interval.roundsTo_of_contains hc.pos (Interval.contains_of_holds hd h)
  · rw [h]
    exact roundsTo_below hc

end RecordPath.Decimal
