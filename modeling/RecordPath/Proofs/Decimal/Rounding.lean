import RecordPath.Proofs.Decimal.Whole

namespace RecordPath.Decimal

open Float.Model UnpackedFloat

/-- The residual bits of a mantissa tell where a number lies between it and the next one. -/
def Represents (em : ExtendedMantissa) (v : ℚ) : Prop :=
  match em.roundBit, em.stickyBit with
  | false, false => v = em.mantissa
  | false, true => em.mantissa < v ∧ v < em.mantissa + 1 / 2
  | true, false => v = em.mantissa + 1 / 2
  | true, true => em.mantissa + 1 / 2 < v ∧ v < em.mantissa + 1

namespace Represents

variable {em : ExtendedMantissa} {v : ℚ}

theorem le (h : Represents em v) : em.mantissa ≤ v := by
  obtain ⟨m, round, sticky⟩ := em
  cases round <;> cases sticky <;> simp only [Represents] at h ⊢ <;> linarith

theorem lt_add_one (h : Represents em v) : v < em.mantissa + 1 := by
  obtain ⟨m, round, sticky⟩ := em
  cases round <;> cases sticky <;> simp only [Represents] at h ⊢ <;> linarith

theorem shiftRightOne (h : Represents em v) : Represents em.shiftRightOne (v / 2) := by
  obtain ⟨m, round, sticky⟩ := em
  obtain ⟨k, rfl | rfl⟩ := Nat.even_or_odd' m
  · have hround : (2 * k % 2 != 0) = false := by simp
    have hmantissa : 2 * k / 2 = k := by omega
    cases round <;> cases sticky <;>
      simp only [Represents, ExtendedMantissa.shiftRightOne, hround, hmantissa, Bool.or_false,
        Bool.or_true] at h ⊢ <;> push_cast at h <;> (try constructor) <;> linarith
  · have hround : ((2 * k + 1) % 2 != 0) = true := by simp
    have hmantissa : (2 * k + 1) / 2 = k := by omega
    cases round <;> cases sticky <;>
      simp only [Represents, ExtendedMantissa.shiftRightOne, hround, hmantissa, Bool.or_false,
        Bool.or_true] at h ⊢ <;> push_cast at h <;> (try constructor) <;> linarith

theorem shiftRight (h : Represents em v) (k : ℕ) : Represents (em >>> k) (v / 2 ^ k) := by
  change Represents (k.repeat ExtendedMantissa.shiftRightOne em) _
  induction k with
  | zero => simpa [Nat.repeat] using h
  | succ k ih =>
    rw [Nat.repeat, pow_succ, ← div_div]
    exact ih.shiftRightOne

/-- A number within half a unit is rounded to that unit; at the very half, to the even one. -/
theorem roundedMantissa_eq {n : ℕ} (h : Represents em v) (hlo : 2 * n - 1 ≤ 2 * v)
    (hhi : 2 * v ≤ 2 * n + 1)
    (hodd : n % 2 = 1 → 2 * n - 1 < 2 * v ∧ 2 * v < 2 * n + 1) : em.roundedMantissa = n := by
  obtain ⟨m, round, sticky⟩ := em
  cases round <;> cases sticky <;> simp only [Represents] at h <;>
    simp only [ExtendedMantissa.roundedMantissa, ExtendedMantissa.accuracy,
      Accuracy.roundToNearestEven]
  · have hle : 2 * m ≤ 2 * n + 1 := by exact_mod_cast h ▸ hhi
    have hge : 2 * n ≤ 2 * m + 1 := by exact_mod_cast (by linarith : (2 * n : ℚ) ≤ 2 * m + 1)
    omega
  · have hle : m < n + 1 := by exact_mod_cast (by linarith : (m : ℚ) < n + 1)
    have hge : n < m + 1 := by exact_mod_cast (by linarith : (n : ℚ) < m + 1)
    omega
  · have hle : m ≤ n := by exact_mod_cast (by linarith : (m : ℚ) ≤ n)
    have hge : n ≤ m + 1 := by exact_mod_cast (by linarith : (n : ℚ) ≤ m + 1)
    -- at the half, both neighbours are as near, and the even one is taken
    have heven : n % 2 ≠ 1 := by
      intro hn
      obtain ⟨hlt, hgt⟩ := hodd hn
      have hlt : n < m + 1 := by exact_mod_cast (by linarith : (n : ℚ) < m + 1)
      have hgt : m < n := by exact_mod_cast (by linarith : (m : ℚ) < n)
      omega
    omega
  · have hle : m < n := by exact_mod_cast (by linarith : (m : ℚ) < n)
    have hge : n < m + 2 := by exact_mod_cast (by linarith : (n : ℚ) < m + 2)
    omega

end Represents

theorem represents_accuracyOfFraction (d : ℕ) {r b : ℕ} (hr : r < b) :
    Represents (.ofMantissaAndAccuracy d (accuracyOfFraction r b)) (d + r / b) := by
  have hb : (0 : ℚ) < b := by exact_mod_cast Nat.zero_lt_of_lt hr
  have hlt : (r : ℚ) / b < 1 := by
    rw [div_lt_one hb]
    exact_mod_cast hr
  rw [accuracyOfFraction]
  split_ifs with hzero
  · simp [Represents, ExtendedMantissa.ofMantissaAndAccuracy, hzero]
  · have hpos : 0 < (r : ℚ) / b := div_pos (by exact_mod_cast Nat.pos_of_ne_zero hzero) hb
    rcases lt_trichotomy (2 * r) b with h | h | h
    · have hhalf : (r : ℚ) / b < 1 / 2 := by
        rw [div_lt_div_iff₀ hb two_pos]
        exact_mod_cast (by omega : r * 2 < 1 * b)
      simp only [Nat.compare_eq_lt.2 h, Represents, ExtendedMantissa.ofMantissaAndAccuracy]
      constructor <;> linarith
    · have hhalf : (r : ℚ) / b = 1 / 2 := by
        rw [div_eq_div_iff hb.ne' two_ne_zero]
        exact_mod_cast (by omega : r * 2 = 1 * b)
      simp only [Nat.compare_eq_eq.2 h, Represents, ExtendedMantissa.ofMantissaAndAccuracy, hhalf]
    · have hhalf : 1 / 2 < (r : ℚ) / b := by
        rw [div_lt_div_iff₀ two_pos hb]
        exact_mod_cast (by omega : 1 * b < r * 2)
      simp only [Nat.compare_eq_gt.2 h, Represents, ExtendedMantissa.ofMantissaAndAccuracy]
      constructor <;> linarith

/-- Shifting changes the unit in which a number is represented, and not the number. -/
theorem represents_shiftToTargetExponent {d : ℕ} {e : ℤ} {acc : Accuracy} {a : ℚ}
    (ha : Represents (.ofMantissaAndAccuracy d acc) a) :
    let first := shiftToTargetExponent .binary64 d e acc
    Represents first.1 (a * 2 ^ e / 2 ^ first.2) ∧
      first.2 = max e (max (d.log2 + e - 52) (-1074)) := by
  intro first
  have hexp : first.2 = max e (max (d.log2 + e - 52) (-1074)) := by
    change e + ((Format.binary64.targetExponent (totalExponent d e) - e).toNat : ℤ) = _
    rw [targetExponent_eq]
    omega
  refine ⟨?_, hexp⟩
  have hvalue : a * 2 ^ e / 2 ^ first.2 =
      a / 2 ^ (Format.binary64.targetExponent (totalExponent d e) - e).toNat := by
    change a * 2 ^ e / 2 ^ (e + ((_ : ℕ) : ℤ)) = _
    rw [zpow_add₀ two_ne_zero, zpow_natCast]
    field_simp
  rw [hvalue]
  exact ha.shiftRight _

structure Canonical (m : ℕ) (q : ℤ) : Prop where
  pos : 0 < m
  lt : m < 2 ^ 53
  ge : -1074 ≤ q
  full : 2 ^ 52 ≤ m ∨ q = -1074

namespace Canonical

variable {m : ℕ} {q : ℤ}

theorem shiftToTargetExponent_eq (h : Canonical m q) :
    (shiftToTargetExponent .binary64 m q .exact).1.mantissa = m ∧
      (shiftToTargetExponent .binary64 m q .exact).2 = q := by
  have hlog : m.log2 < 53 := (Nat.log2_lt h.pos.ne').2 h.lt
  have htarget : Format.binary64.targetExponent (totalExponent m q) = q := by
    rw [targetExponent_eq]
    have := h.ge
    rcases h.full with hfull | hfull
    · have := log2_eq hfull h.lt
      omega
    · omega
  rw [shiftToTargetExponent, htarget, shiftToExponent, sub_self]
  exact ⟨(mantissa_shiftRight _ 0).trans (Nat.div_one m), add_zero q⟩

end Canonical

/-- Below a power of two doubles lie twice as dense as above it, save at the least exponent. -/
def IsNarrow (m : ℕ) (q : ℤ) : Prop := m = 2 ^ 52 ∧ q ≠ -1074

instance (m : ℕ) (q : ℤ) : Decidable (IsNarrow m q) := inferInstanceAs (Decidable (_ ∧ _))

/-- The numbers to which no double is nearer than `m * 2 ^ q`. The ends are half-way to the next
double, and belong to the one with the even mantissa. -/
structure RoundsTo (m : ℕ) (q : ℤ) (v : ℚ) : Prop where
  low : 4 * m - (if IsNarrow m q then 1 else 2) ≤ 4 * (v / 2 ^ q)
  high : 4 * (v / 2 ^ q) ≤ 4 * m + 2
  odd : m % 2 = 1 → 4 * m - 2 < 4 * (v / 2 ^ q) ∧ 4 * (v / 2 ^ q) < 4 * m + 2

/-- The second of two shifts takes back what rounding has carried. -/
theorem roundWithAccuracy_of_shift {s : Sign} {d m r : ℕ} {e q : ℤ} {acc : Accuracy} (hm : 0 < m)
    (hr : (shiftToTargetExponent .binary64 d e acc).1.roundedMantissa = r)
    (hmantissa : (shiftToTargetExponent .binary64 r
      (shiftToTargetExponent .binary64 d e acc).2 .exact).1.mantissa = m)
    (hexp : (shiftToTargetExponent .binary64 r
      (shiftToTargetExponent .binary64 d e acc).2 .exact).2 = q) :
    roundWithAccuracy .binary64 s d e acc = .finite s m q hm := by
  subst hr
  unfold roundWithAccuracy
  generalize shiftToTargetExponent .binary64 d e acc = first at hmantissa hexp ⊢
  obtain ⟨em, e₁⟩ := first
  dsimp only at hmantissa hexp ⊢
  generalize shiftToTargetExponent .binary64 em.roundedMantissa e₁ .exact = second
    at hmantissa hexp ⊢
  subst hmantissa
  subst hexp
  exact dif_neg hm.ne'

section Log

variable {d : ℕ} {e k : ℤ} {a : ℚ}

theorem log2_add_lt (hd : d ≤ a) (he : e < k) (h : a * 2 ^ e < 2 ^ k) : d.log2 + e < k := by
  by_cases hzero : d = 0
  · simpa [hzero] using he
  · have hlog : (2 : ℚ) ^ (d.log2 : ℤ) ≤ d := by
      rw [zpow_natCast]
      exact_mod_cast Nat.log2_self_le hzero
    have hpow : (2 : ℚ) ^ (d.log2 + e : ℤ) < 2 ^ k := by
      rw [zpow_add₀ two_ne_zero]
      have := mul_le_mul_of_nonneg_right (hlog.trans hd) (zpow_nonneg zero_le_two e)
      exact this.trans_lt h
    exact (zpow_lt_zpow_iff_right₀ one_lt_two).1 hpow

theorem le_log2_add (hd : a < d + 1) (h : 2 ^ k ≤ a * 2 ^ e) : k ≤ d.log2 + e := by
  have hlog : (d + 1 : ℚ) ≤ 2 ^ (d.log2 + 1 : ℤ) := by
    exact_mod_cast Nat.lt_log2_self (n := d)
  have hpow : (2 : ℚ) ^ k < 2 ^ (d.log2 + 1 + e : ℤ) := by
    rw [zpow_add₀ two_ne_zero (d.log2 + 1 : ℤ)]
    exact h.trans_lt (mul_lt_mul_of_pos_right (hd.trans_le hlog) (zpow_pos two_pos e))
  have := (zpow_lt_zpow_iff_right₀ one_lt_two).1 hpow
  omega

end Log

theorem mantissa_ofMantissaAndAccuracy (d : ℕ) (acc : Accuracy) :
    (ExtendedMantissa.ofMantissaAndAccuracy d acc).mantissa = d := by
  unfold ExtendedMantissa.ofMantissaAndAccuracy
  split <;> rfl

section Shift

variable {s : Sign} {d m : ℕ} {e q : ℤ} {acc : Accuracy} {a : ℚ}

theorem RoundsTo.lt (h : RoundsTo m q a) (hc : Canonical m q) : a < 2 ^ (53 + q) := by
  have hm : (m : ℚ) + 1 ≤ 2 ^ 53 := by exact_mod_cast hc.lt
  rw [zpow_add₀ two_ne_zero, ← div_lt_iff₀ (zpow_pos two_pos q)]
  calc
    a / 2 ^ q < m + 1 := by linarith [h.high]
    _ ≤ 2 ^ (53 : ℤ) := hm

/-- A number that is cut at the exponent of the nearest double is rounded to its mantissa. -/
theorem roundWithAccuracy_of_exp (hc : Canonical m q)
    (ha : Represents (.ofMantissaAndAccuracy d acc) a) (hv : RoundsTo m q (a * 2 ^ e))
    (hexp : (shiftToTargetExponent .binary64 d e acc).2 = q) :
    roundWithAccuracy .binary64 s d e acc = .finite s m q hc.pos := by
  obtain ⟨hfirst, -⟩ := represents_shiftToTargetExponent (e := e) ha
  rw [hexp] at hfirst
  have hlow := hv.low
  have hr : (shiftToTargetExponent .binary64 d e acc).1.roundedMantissa = m := by
    apply hfirst.roundedMantissa_eq
    · split_ifs at hlow <;> linarith
    · linarith [hv.high]
    · intro hodd
      obtain ⟨hlo, hhi⟩ := hv.odd hodd
      constructor <;> linarith
  obtain ⟨hmantissa, hexp'⟩ := hc.shiftToTargetExponent_eq
  rw [← hexp] at hmantissa hexp'
  exact roundWithAccuracy_of_shift hc.pos hr hmantissa (hexp'.trans hexp)

/-- Just below a power of two, a number is cut one bit lower, and rounding carries. -/
theorem roundWithAccuracy_of_carry (hq : -1074 < q)
    (ha : Represents (.ofMantissaAndAccuracy d acc) a)
    (hlow : 2 ^ 54 - 1 ≤ 4 * (a * 2 ^ e / 2 ^ q)) (hhigh : a * 2 ^ e / 2 ^ q ≤ 2 ^ 52)
    (hexp : (shiftToTargetExponent .binary64 d e acc).2 = q - 1) :
    roundWithAccuracy .binary64 s d e acc = .finite s (2 ^ 52) q (by decide) := by
  obtain ⟨hfirst, -⟩ := represents_shiftToTargetExponent (e := e) ha
  have hdouble : a * 2 ^ e / 2 ^ (q - 1) = 2 * (a * 2 ^ e / 2 ^ q) := by
    rw [zpow_sub_one₀ two_ne_zero]
    field_simp
  rw [hexp, hdouble] at hfirst
  have hr : (shiftToTargetExponent .binary64 d e acc).1.roundedMantissa = 2 ^ 53 := by
    apply hfirst.roundedMantissa_eq
    · push_cast
      linarith
    · push_cast
      linarith
    · intro hodd
      omega
  have hlog : (2 ^ 53).log2 = 53 := Nat.log2_two_pow
  obtain ⟨hmantissa, hexp'⟩ :=
    shiftToTargetExponent_eq (m := 2 ^ 53) (e := q - 1) (by decide) (by omega)
  rw [← hexp] at hmantissa hexp'
  refine roundWithAccuracy_of_shift _ hr hmantissa (hexp'.trans ?_)
  omega

/-- A number with enough bits is rounded to the double that it lies nearest to. -/
theorem roundWithAccuracy_eq (hc : Canonical m q)
    (ha : Represents (.ofMantissaAndAccuracy d acc) a) (hv : RoundsTo m q (a * 2 ^ e))
    (he : e ≤ q) (hbits : a * 2 ^ e < 2 ^ (52 + q) → q = -1074 ∨ e < q) :
    roundWithAccuracy .binary64 s d e acc = .finite s m q hc.pos := by
  obtain ⟨-, hexp⟩ := represents_shiftToTargetExponent (e := e) ha
  have hd := ha.le
  have hd' := ha.lt_add_one
  rw [mantissa_ofMantissaAndAccuracy] at hd hd'
  have hge := hc.ge
  by_cases hnormal : 2 ^ (52 + q) ≤ a * 2 ^ e
  · have hlog := log2_add_lt hd (by omega) (hv.lt hc)
    have hlog' := le_log2_add hd' hnormal
    exact roundWithAccuracy_of_exp hc ha hv (hexp.trans (by omega))
  · rw [not_le] at hnormal
    have hlog := log2_add_lt hd (by omega) hnormal
    rcases hbits hnormal with hq | hlt
    · exact roundWithAccuracy_of_exp hc ha hv (hexp.trans (by omega))
    · by_cases hq : q = -1074
      · exact roundWithAccuracy_of_exp hc ha hv (hexp.trans (by omega))
      have hunits : a * 2 ^ e / 2 ^ q < 2 ^ 52 := by
        rw [div_lt_iff₀ (zpow_pos two_pos q)]
        rwa [zpow_add₀ two_ne_zero] at hnormal
      -- only the least mantissa with all bits has numbers below its own power of two
      obtain rfl : m = 2 ^ 52 := by
        have hlow := hv.low
        have hle : m < 2 ^ 52 + 1 := by
          exact_mod_cast (by split_ifs at hlow <;> linarith : (m : ℚ) < 2 ^ 52 + 1)
        have hfull := hc.full.resolve_right hq
        omega
      have hlow := hv.low
      rw [if_pos ⟨rfl, hq⟩] at hlow
      push_cast at hlow
      have hhalf : 2 ^ (51 + q) ≤ a * 2 ^ e := by
        rw [zpow_add₀ two_ne_zero, ← le_div_iff₀ (zpow_pos two_pos q)]
        linarith
      have hlog' := le_log2_add hd' hhalf
      exact roundWithAccuracy_of_carry (by omega) ha (by linarith) hunits.le
        (hexp.trans (by omega))

end Shift

section Quotient

variable {m m₁ m₂ : ℕ} {q e₁ e₂ : ℤ}

theorem two_zpow_lt_div (e₁ e₂ : ℤ) (h₁ : 0 < m₁) (h₂ : 0 < m₂) :
    (2 : ℚ) ^ (totalExponent m₁ e₁ - totalExponent m₂ e₂ - 1) < m₁ * 2 ^ e₁ / (m₂ * 2 ^ e₂) := by
  have hlow : (2 : ℚ) ^ (m₁.log2 : ℤ) ≤ m₁ := by
    rw [zpow_natCast]
    exact_mod_cast Nat.log2_self_le h₁.ne'
  have hhigh : (m₂ : ℚ) < 2 ^ (m₂.log2 + 1 : ℤ) := by
    exact_mod_cast Nat.lt_log2_self (n := m₂)
  have hm₂ : (0 : ℚ) < m₂ := by exact_mod_cast h₂
  have hsplit : totalExponent m₁ e₁ - totalExponent m₂ e₂ - 1 =
      m₁.log2 + e₁ - (m₂.log2 + 1 + e₂) := by
    unfold totalExponent
    omega
  rw [hsplit, zpow_sub₀ two_ne_zero, zpow_add₀ two_ne_zero, zpow_add₀ two_ne_zero (m₂.log2 + 1 : ℤ)]
  have hpow₁ := zpow_pos (two_pos (α := ℚ)) e₁
  have hpow₂ := zpow_pos (two_pos (α := ℚ)) e₂
  calc
    (2 : ℚ) ^ (m₁.log2 : ℤ) * 2 ^ e₁ / (2 ^ (m₂.log2 + 1 : ℤ) * 2 ^ e₂)
        ≤ m₁ * 2 ^ e₁ / (2 ^ (m₂.log2 + 1 : ℤ) * 2 ^ e₂) := by gcongr
    _ < m₁ * 2 ^ e₁ / (m₂ * 2 ^ e₂) := by gcongr

/-- A quotient of two numbers is rounded to the double that it lies nearest to. -/
theorem div_eq (h₁ : 0 < m₁) (h₂ : 0 < m₂) (hc : Canonical m q)
    (hv : RoundsTo m q (m₁ * 2 ^ e₁ / (m₂ * 2 ^ e₂))) :
    UnpackedFloat.div .binary64 (.finite .positive m₁ e₁ h₁) (.finite .positive m₂ e₂ h₂) =
      .finite .positive m q hc.pos := by
  have htarget : Format.binary64.targetExponent (totalExponent m₁ e₁ - totalExponent m₂ e₂) =
      max (totalExponent m₁ e₁ - totalExponent m₂ e₂ - 53) (-1074) := rfl
  have hbound := two_zpow_lt_div e₁ e₂ h₁ h₂
  change roundWithAccuracy .binary64 .positive (divCore .binary64 m₁ e₁ m₂ e₂).1
    (divCore .binary64 m₁ e₁ m₂ e₂).2.1 (divCore .binary64 m₁ e₁ m₂ e₂).2.2 = _
  unfold divCore
  dsimp only
  rw [htarget, Nat.shiftLeft_eq]
  generalize totalExponent m₁ e₁ - totalExponent m₂ e₂ = t at hbound ⊢
  generalize he : min (e₁ - e₂) (max (t - 53) (-1074)) = e
  generalize hk : (e₁ - e₂ - e).toNat = k
  have hm₂ : (m₂ : ℚ) ≠ 0 := by exact_mod_cast h₂.ne'
  have ha := represents_accuracyOfFraction (m₁ * 2 ^ k / m₂) (Nat.mod_lt (m₁ * 2 ^ k) h₂)
  -- no bit is lost: the quotient with its remainder is the quotient of the two numbers
  have hvalue : ((m₁ * 2 ^ k / m₂ : ℕ) + (m₁ * 2 ^ k % m₂ : ℕ) / m₂ : ℚ) * 2 ^ e =
      m₁ * 2 ^ e₁ / (m₂ * 2 ^ e₂) := by
    have hdiv : ((m₁ * 2 ^ k / m₂ : ℕ) + (m₁ * 2 ^ k % m₂ : ℕ) / m₂ : ℚ) = m₁ * 2 ^ k / m₂ := by
      rw [eq_div_iff hm₂, add_mul, div_mul_cancel₀ _ hm₂]
      exact_mod_cast Nat.div_add_mod' (m₁ * 2 ^ k) m₂
    have hpow : (2 : ℚ) ^ k = 2 ^ e₁ / 2 ^ e₂ / 2 ^ e := by
      rw [← zpow_sub₀ two_ne_zero, ← zpow_sub₀ two_ne_zero, ← zpow_natCast]
      congr 1
      omega
    rw [hdiv, hpow]
    field_simp
  have hupper : t - 1 < 53 + q :=
    (zpow_lt_zpow_iff_right₀ one_lt_two).1 (hbound.trans (hv.lt hc))
  have hge := hc.ge
  refine roundWithAccuracy_eq hc ha (hvalue ▸ hv) (by omega) fun hlt => ?_
  rw [hvalue] at hlt
  have hlower : t - 1 < 52 + q := (zpow_lt_zpow_iff_right₀ one_lt_two).1 (hbound.trans hlt)
  omega

end Quotient

end RecordPath.Decimal
