import RecordPath.Proofs.Decimal.Unpacked

namespace RecordPath.Decimal

open Float.Model UnpackedFloat

/-- A finite number with a leading bit, whose exponent lies between two bounds. -/
def Normal (lo hi : Int) (u : UnpackedFloat) : Prop :=
  ∃ s m e h, u = .finite s m e h ∧ 2 ^ 52 ≤ m ∧ m < 2 ^ 53 ∧ lo ≤ e ∧ e ≤ hi

theorem mantissa_shiftRight (em : ExtendedMantissa) (k : Nat) :
    (em >>> k).mantissa = em.mantissa / 2 ^ k := by
  change (k.repeat ExtendedMantissa.shiftRightOne em).mantissa = _
  induction k with
  | zero => simp [Nat.repeat]
  | succ k ih =>
    rw [Nat.repeat, ExtendedMantissa.shiftRightOne, ih, Nat.div_div_eq_div_mul, Nat.pow_succ]

theorem roundedMantissa_bounds (em : ExtendedMantissa) :
    em.mantissa ≤ em.roundedMantissa ∧ em.roundedMantissa ≤ em.mantissa + 1 := by
  obtain ⟨m, round, sticky⟩ := em
  cases round <;> cases sticky <;>
    simp only [ExtendedMantissa.roundedMantissa, ExtendedMantissa.accuracy,
      Accuracy.roundToNearestEven] <;> omega

theorem targetExponent_eq (d : Nat) (e : Int) :
    Format.binary64.targetExponent (totalExponent d e) = max (d.log2 + e - 52) (-1074) := by
  have hmin : Format.binary64.minExponent = -1074 := by decide
  have hbits : Format.binary64.mantissaBits = 53 := by decide
  rw [Format.targetExponent, totalExponent, hmin, hbits]
  omega

theorem shiftToTargetExponent_eq {m : Nat} {e : Int} (hm : 2 ^ 52 ≤ m)
    (he : -1074 ≤ m.log2 + e - 52) :
    (shiftToTargetExponent .binary64 m e .exact).1.mantissa = m / 2 ^ (m.log2 - 52) ∧
      (shiftToTargetExponent .binary64 m e .exact).2 = m.log2 + e - 52 := by
  have hlog : 52 ≤ m.log2 := (Nat.le_log2 (by omega)).2 hm
  have htarget : Format.binary64.targetExponent (totalExponent m e) = m.log2 + e - 52 := by
    rw [targetExponent_eq]
    omega
  have hshift : ((m.log2 : Int) + e - 52 - e).toNat = m.log2 - 52 := by omega
  rw [shiftToTargetExponent, htarget, shiftToExponent, hshift]
  refine ⟨mantissa_shiftRight _ _, ?_⟩
  omega

theorem div_two_pow_bounds {m : Nat} (hm : 2 ^ 52 ≤ m) :
    2 ^ 52 ≤ m / 2 ^ (m.log2 - 52) ∧ m / 2 ^ (m.log2 - 52) < 2 ^ 53 := by
  have hlog : 52 ≤ m.log2 := (Nat.le_log2 (by omega)).2 hm
  have hpow : 2 ^ m.log2 = 2 ^ 52 * 2 ^ (m.log2 - 52) := by
    rw [← Nat.pow_add, Nat.add_sub_cancel' hlog]
  have hlo : 2 ^ m.log2 ≤ m := Nat.log2_self_le (by omega)
  have hhi : m < 2 ^ (m.log2 + 1) := Nat.lt_log2_self
  constructor
  · rw [Nat.le_div_iff_mul_le (Nat.two_pow_pos _), ← hpow]
    exact hlo
  · rw [Nat.div_lt_iff_lt_mul (Nat.two_pow_pos _)]
    omega

theorem log2_eq {m : Nat} (hlo : 2 ^ 52 ≤ m) (hhi : m < 2 ^ 53) : m.log2 = 52 := by
  have h1 : 52 ≤ m.log2 := (Nat.le_log2 (by omega)).2 hlo
  have h2 : m.log2 < 53 := (Nat.log2_lt (by omega)).2 hhi
  omega

theorem log2_mul_two_pow {n : Nat} (hn : n ≠ 0) (k : Nat) : (n * 2 ^ k).log2 = n.log2 + k := by
  induction k with
  | zero => simp
  | succ k ih =>
    rw [Nat.pow_succ', Nat.mul_left_comm,
      Nat.log2_two_mul (Nat.mul_ne_zero hn (Nat.ne_of_gt (Nat.two_pow_pos k))), ih, Nat.add_assoc]

variable {lo hi : Int}

/-- Rounding may carry into one bit more, and then the exponent goes up by one. -/
theorem normal_roundWithAccuracy {s : Sign} {m : Nat} {e : Int} (hm : 2 ^ 52 ≤ m)
    (hmin : -1074 ≤ lo) (hle : lo ≤ m.log2 + e - 52) (hge : m.log2 + e - 51 ≤ hi) :
    Normal lo hi (roundWithAccuracy .binary64 s m e .exact) := by
  obtain ⟨hcut, hexp⟩ := shiftToTargetExponent_eq (e := e) hm (by omega)
  obtain ⟨hlo, hhi⟩ := div_two_pow_bounds hm
  unfold roundWithAccuracy
  generalize shiftToTargetExponent .binary64 m e .exact = first at hcut hexp ⊢
  obtain ⟨em, e₁⟩ := first
  dsimp only at hcut hexp ⊢
  obtain ⟨hup, hdown⟩ := roundedMantissa_bounds em
  generalize em.roundedMantissa = r at hup hdown ⊢
  rw [hcut] at hup hdown
  have hr : 2 ^ 52 ≤ r := Nat.le_trans hlo hup
  have hlog : r.log2 = 52 ∨ r = 2 ^ 53 := by
    by_cases h : r < 2 ^ 53
    · exact .inl (log2_eq hr h)
    · exact .inr (by omega)
  have hlog' : 52 ≤ r.log2 ∧ r.log2 ≤ 53 := by
    rcases hlog with h | rfl
    · omega
    · rw [Nat.log2_two_pow]
      omega
  obtain ⟨hcut₂, hexp₂⟩ := shiftToTargetExponent_eq (e := e₁) hr (by omega)
  obtain ⟨hlo₂, hhi₂⟩ := div_two_pow_bounds hr
  rw [← hcut₂] at hlo₂ hhi₂
  generalize shiftToTargetExponent .binary64 r e₁ .exact = second at hexp₂ hlo₂ hhi₂ ⊢
  rw [dif_neg (by omega)]
  exact ⟨s, _, _, _, rfl, hlo₂, hhi₂, by omega, by omega⟩

/-- An integer of at most 53 bits is shifted until it fills them. -/
theorem round_eq_roundWithAccuracy {s : Sign} {n : Nat} (hlog : n.log2 ≤ 52) :
    round .binary64 s n 0 =
      roundWithAccuracy .binary64 s (n * 2 ^ (52 - n.log2)) (n.log2 - 52) .exact := by
  have htarget : Format.binary64.targetExponent (totalExponent n 0) = n.log2 - 52 := by
    rw [targetExponent_eq]
    omega
  have hshift : ((0 : Int) - (n.log2 - 52)).toNat = 52 - n.log2 := by omega
  have hexp : (0 : Int) - (52 - n.log2 : Nat) = n.log2 - 52 := by omega
  rw [UnpackedFloat.round, htarget, decreaseExponent, hshift, Nat.shiftLeft_eq, hexp]

theorem log2_filled {n : Nat} (hn : n ≠ 0) (hlog : n.log2 ≤ 52) :
    (n * 2 ^ (52 - n.log2)).log2 = 52 := by
  rw [log2_mul_two_pow hn, Nat.add_sub_cancel' hlog]

theorem filled_bounds {n : Nat} (hn : n ≠ 0) (hlog : n.log2 ≤ 52) :
    2 ^ 52 ≤ n * 2 ^ (52 - n.log2) ∧ n * 2 ^ (52 - n.log2) < 2 ^ 53 := by
  have hne : n * 2 ^ (52 - n.log2) ≠ 0 := Nat.mul_ne_zero hn (Nat.ne_of_gt (Nat.two_pow_pos _))
  have hfull := log2_filled hn hlog
  exact ⟨(Nat.le_log2 hne).1 (Nat.le_of_eq hfull.symm), (Nat.log2_lt hne).1 (by omega)⟩

theorem normal_round {s : Sign} {n : Nat} (hn : n ≠ 0) (hlog : n.log2 ≤ 52) :
    Normal (-52) 1 (round .binary64 s n 0) := by
  have hfull := log2_filled hn hlog
  rw [round_eq_roundWithAccuracy hlog]
  exact normal_roundWithAccuracy (filled_bounds hn hlog).1 (by omega) (by omega) (by omega)

/-- The product with one is rounded, although nothing is lost. -/
theorem Normal.mul_one {hi' : Int} {u : UnpackedFloat} (h : Normal lo hi u) (hlo : -1074 ≤ lo)
    (hhi : hi + 1 ≤ hi') :
    Normal lo hi'
      (UnpackedFloat.mul .binary64 u (.finite .positive (2 ^ 52) (-52) (by decide))) := by
  obtain ⟨s, m, e, hpos, rfl, hm, hm', hle, hge⟩ := h
  have hlog : (m * 2 ^ 52).log2 = 104 := by rw [log2_mul_two_pow (by omega), log2_eq hm hm']
  rw [UnpackedFloat.mul]
  exact normal_roundWithAccuracy (by omega) hlo (by omega) (by omega)

/-- What has a leading bit and a fitting exponent survives the 64-bit format. -/
theorem unpack_pack_finite {s : Sign} {m : Nat} {e : Int} (hpos : 0 < m) (hm : 2 ^ 52 ≤ m)
    (hm' : m < 2 ^ 53) (he : -1074 ≤ e) (he' : e ≤ 971) :
    (Float.Model.pack (.finite s m e hpos)).unpack = .finite s m e hpos := by
  have hbias : (e + Format.binary64.exponentBias +
      Format.binary64.mantissaBitsWithoutImplicit).toNat = (e + 1075).toNat := by
    change (e + (1023 : Nat) + (52 : Nat)).toNat = _
    omega
  have hne : BitVec.ofNat 11 (e + 1075).toNat ≠ -1#11 := by
    intro h
    have := congrArg BitVec.toNat h
    simp only [BitVec.toNat_ofNat, BitVec.toNat_neg] at this
    omega
  have hne0 : BitVec.ofNat 11 (e + 1075).toNat ≠ 0#11 := by
    intro h
    have := congrArg BitVec.toNat h
    simp only [BitVec.toNat_ofNat] at this
    omega
  have hmant : (1#1 ++ BitVec.ofNat 52 m).toNat = m := by
    rw [toNat_append_one, BitVec.toNat_ofNat]
    omega
  have hexp : (((BitVec.ofNat 11 (e + 1075).toNat).toNat : Nat) : Int) -
      (Format.binary64.exponentBias + Format.binary64.mantissaBitsWithoutImplicit) = e := by
    change (_ : Int) - ((1023 : Nat) + (52 : Nat)) = e
    rw [BitVec.toNat_ofNat]
    omega
  change UnpackedFloat.unpack .binary64 (UnpackedFloat.pack .binary64 _) = _
  rw [UnpackedFloat.pack]
  simp only [log2_eq hm hm', hbias]
  rw [if_neg (by omega), if_pos (by decide), UnpackedFloat.unpack]
  simp only [unpackSign_packComponents, unpackMantissa_packComponents,
    unpackExponent_packComponents]
  rw [if_neg hne, if_neg hne0, UnpackedFloat.finite.injEq]
  exact ⟨Sign.ofBitVec_toBitVec s, hmant, hexp⟩

theorem Normal.unpack_pack {u : UnpackedFloat} (h : Normal lo hi u) (hlo : -1074 ≤ lo)
    (hhi : hi ≤ 971) : Normal lo hi (Float.Model.pack u).unpack := by
  obtain ⟨s, m, e, hpos, rfl, hm, hm', he, he'⟩ := h
  rw [unpack_pack_finite hpos hm hm' (by omega) (by omega)]
  exact ⟨s, m, e, hpos, rfl, hm, hm', he, he'⟩

variable {x : Float}

theorem isFinite_of_normal (h : Normal lo hi x.toModel.unpack) : isFinite x = true := by
  obtain ⟨s, m, e, hpos, hu, -⟩ := h
  rw [isFinite, parts_eq_ofUnpacked, hu]
  rfl

theorem zero_beq_of_normal (h : Normal lo hi x.toModel.unpack) : ((0 : Float) == x) = false := by
  obtain ⟨s, m, e, hpos, hu, -⟩ := h
  change ((0 : Float).toModel.unpack.compare x.toModel.unpack == some .eq) = false
  have hzero : (0 : Float).toModel.unpack = .zero .positive := rfl
  rw [hzero, hu]
  cases s <;> rfl

/-- Scaling by no power of ten shifts a number to the left and rounds it. -/
theorem ofScientific_zero {n : Nat} (hn : n ≠ 0) :
    UnpackedFloat.ofScientific .binary64 n 0 =
      roundWithAccuracy .binary64 .positive (n * 2 ^ 53) (-53) .exact := by
  rw [UnpackedFloat.ofScientific, dif_neg hn, if_neg (by decide), if_neg, if_pos (by decide),
    UnpackedFloat.mul]
  · change roundWithAccuracy _ .positive (n <<< 53 * 1) (-53 + 0) _ = _
    rw [Nat.mul_one, Nat.shiftLeft_eq, Int.add_zero]
  · change ¬ (0 : Int) < -((2 ^ 11 : Int) + n.log2)
    omega

theorem ofUInt64_toUInt64 {n : Nat} (hn : n ≠ 0) (hlt : n < 2 ^ 53) :
    UnpackedFloat.ofUInt64 .binary64 n.toUInt64 = round .binary64 .positive n 0 := by
  have htoNat : n.toUInt64.toNat = n := Nat.mod_eq_of_lt (by omega)
  rw [UnpackedFloat.ofUInt64, htoNat, UnpackedFloat.ofNat, UnpackedFloat.ofInt,
    UnpackedFloat.normalize, Int.compare_eq_gt.2 (by omega)]
  rfl

theorem normal_toFloat {n : Nat} (hn : n ≠ 0) (hlt : n < 2 ^ 53) :
    Normal (-52) 1 n.toUInt64.toFloat.toModel.unpack := by
  have hlog : n.log2 < 53 := (Nat.log2_lt hn).2 hlt
  change Normal _ _ (Float.Model.pack (UnpackedFloat.ofUInt64 .binary64 n.toUInt64)).unpack
  rw [ofUInt64_toUInt64 hn hlt]
  exact (normal_round hn (by omega)).unpack_pack (by omega) (by omega)

/-- Small integers are converted as they are and multiplied by one, greater ones are rounded. -/
theorem normal_ofNat {n : Nat} (hn : n ≠ 0) (hlt : n < 2 ^ 64) :
    Normal (-52) 12 (Float.ofNat n).toModel.unpack := by
  have hlog : n.log2 < 64 := (Nat.log2_lt hn).2 hlt
  unfold Float.ofNat
  change Normal _ _ (Float.ofScientific n false 0).toModel.unpack
  unfold Float.ofScientific
  split
  · rename_i h
    have hone : (Float.ofBits 0x3FF0000000000000).toModel.unpack =
        .finite .positive (2 ^ 52) (-52) (by decide) := rfl
    have hproduct : Normal (-52) 12 (UnpackedFloat.mul .binary64 n.toUInt64.toFloat.toModel.unpack
        (Float.ofBits 0x3FF0000000000000).toModel.unpack) := by
      rw [hone]
      exact (normal_toFloat hn h.1).mul_one (by omega) (by omega)
    exact hproduct.unpack_pack (by omega) (by omega)
  · rename_i h
    have hbig : 2 ^ 53 ≤ n := by omega
    have hlog' : (n * 2 ^ 53).log2 = n.log2 + 53 := log2_mul_two_pow hn 53
    have hbits : 53 ≤ n.log2 := (Nat.le_log2 hn).2 hbig
    change Normal _ _ (Float.Model.pack (UnpackedFloat.ofScientific .binary64 n 0)).unpack
    rw [ofScientific_zero hn]
    have hround :
        Normal (-52) 12 (roundWithAccuracy .binary64 .positive (n * 2 ^ 53) (-53) .exact) :=
      normal_roundWithAccuracy (by omega) (by omega) (by omega) (by omega)
    exact hround.unpack_pack (by omega) (by omega)

/-- The double nearest to an integer of 64 bits, signed or not, has a leading bit. -/
theorem normal_ofInt {n : Int} (hn : n ≠ 0) (hlo : -0x8000000000000000 ≤ n)
    (hhi : n < 0x10000000000000000) :
    Normal (-52) 12 (Float.ofInt n).toModel.unpack := by
  cases n with
  | ofNat n =>
    rw [Int.ofNat_eq_natCast] at hn hhi
    exact normal_ofNat (by omega) (by omega)
  | negSucc n =>
    obtain ⟨s, m, e, hpos, hu, h⟩ := @normal_ofNat (n + 1) (by omega) (by omega)
    have hneg : Normal (-52) 12 (Float.ofNat (n + 1)).toModel.unpack.neg := by
      rw [hu]
      exact ⟨-s, m, e, hpos, rfl, h⟩
    exact hneg.unpack_pack (by omega) (by omega)

theorem isFinite_ofInt {n : Int} (hlo : -0x8000000000000000 ≤ n)
    (hhi : n < 0x10000000000000000) :
    isFinite (Float.ofInt n) = true := by
  by_cases hn : n = 0
  · rw [hn]
    decide
  · exact isFinite_of_normal (normal_ofInt hn hlo hhi)

theorem zero_beq_ofInt {n : Int} (hlo : -0x8000000000000000 ≤ n)
    (hhi : n < 0x10000000000000000) :
    ((0 : Float) == Float.ofInt n) = (n == 0) := by
  by_cases hn : n = 0
  · rw [hn]
    decide
  · rw [zero_beq_of_normal (normal_ofInt hn hlo hhi), beq_eq_false_iff_ne.2 hn]

end RecordPath.Decimal
