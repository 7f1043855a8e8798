import RecordPath.Proofs.Decimal.Rounding

namespace RecordPath.Decimal

open Float.Model UnpackedFloat

section Whole

def IsWhole (n : ℕ) : UnpackedFloat → Prop
  | .finite .positive m e _ => m * 2 ^ e.toNat = n * 2 ^ (-e).toNat
  | _ => False

instance (n : ℕ) : DecidablePred (IsWhole n)
  | .finite .positive m e _ =>
    inferInstanceAs (Decidable (m * 2 ^ e.toNat = n * 2 ^ (-e).toNat))
  | .finite .negative .. | .infinity _ | .notANumber | .zero _ => instDecidableFalse

variable {n : ℕ} {u : UnpackedFloat}

theorem IsWhole.exists_eq (h : IsWhole n u) :
    ∃ m e hm, u = .finite .positive m e hm ∧ (m : ℚ) * 2 ^ e = n := by
  unfold IsWhole at h
  split at h
  · rename_i m e hm
    refine ⟨m, e, hm, rfl, ?_⟩
    have hcast : (m : ℚ) * 2 ^ e.toNat = n * 2 ^ (-e).toNat := by exact_mod_cast h
    have hpow : (2 : ℚ) ^ e = 2 ^ e.toNat / 2 ^ (-e).toNat := by
      rw [← zpow_natCast, ← zpow_natCast, ← zpow_sub₀ two_ne_zero]
      congr 1
      omega
    rw [hpow, ← mul_div_assoc, hcast, mul_div_cancel_right₀ _ (pow_ne_zero _ two_ne_zero)]
  · exact h.elim

theorem roundsTo_self {m : ℕ} {q : ℤ} : RoundsTo m q (m * 2 ^ q) := by
  have hunits : (m : ℚ) * 2 ^ q / 2 ^ q = m :=
    mul_div_cancel_right₀ _ (zpow_ne_zero q two_ne_zero)
  constructor
  · rw [hunits]
    split_ifs <;> linarith
  · rw [hunits]
    linarith
  · intro _
    rw [hunits]
    constructor <;> linarith

theorem isWhole_toFloat (hn : n ≠ 0) (hlt : n < 2 ^ 53) :
    IsWhole n n.toUInt64.toFloat.toModel.unpack := by
  have hlog : n.log2 ≤ 52 := Nat.le_of_lt_succ ((Nat.log2_lt hn).2 hlt)
  obtain ⟨hlo, hhi⟩ := filled_bounds hn hlog
  have hc : Canonical (n * 2 ^ (52 - n.log2)) (n.log2 - 52) :=
    ⟨by omega, hhi, by omega, .inl hlo⟩
  have hround : round .binary64 .positive n 0 =
      .finite .positive (n * 2 ^ (52 - n.log2)) (n.log2 - 52) hc.pos := by
    rw [round_eq_roundWithAccuracy hlog]
    refine roundWithAccuracy_eq hc (a := (n * 2 ^ (52 - n.log2) : ℕ)) rfl roundsTo_self le_rfl ?_
    intro hshort
    have hlow : (2 : ℚ) ^ (52 : ℤ) ≤ (n * 2 ^ (52 - n.log2) : ℕ) := by exact_mod_cast hlo
    rw [zpow_add₀ two_ne_zero] at hshort
    exact absurd hshort (not_lt_of_ge (mul_le_mul_of_nonneg_right hlow (zpow_nonneg zero_le_two _)))
  change IsWhole n (Float.Model.pack (UnpackedFloat.ofUInt64 .binary64 n.toUInt64)).unpack
  rw [ofUInt64_toUInt64 hn hlt, hround,
    unpack_pack_finite hc.pos hlo hhi (by omega) (by omega)]
  have hzero : ((n.log2 : ℤ) - 52).toNat = 0 := by omega
  have hneg : (-((n.log2 : ℤ) - 52)).toNat = 52 - n.log2 := by omega
  rw [IsWhole, hzero, hneg, pow_zero, mul_one]

theorem isWhole_powers (k : Fin Float.exactlyRepresentablePowersOfTen.size) :
    IsWhole (10 ^ (k : ℕ)) Float.exactlyRepresentablePowersOfTen[k].toModel.unpack := by
  decide +kernel +revert

end Whole

section Scientific

variable {x : Float} {m : ℕ} {q : ℤ} {n k : ℕ}

theorem canonical_of_parts {b : Bool} (hx : parts x = ⟨b, .finite m q⟩) : Canonical m q := by
  unfold parts at hx
  rw [Parts.mk.injEq] at hx
  obtain ⟨-, hx⟩ := hx
  change (if x.toBits.toNat / 2 ^ 52 % 2 ^ 11 = 2047 then
      if x.toBits.toNat % 2 ^ 52 = 0 then Magnitude.infinite else .nan
    else if x.toBits.toNat / 2 ^ 52 % 2 ^ 11 = 0 then
      if x.toBits.toNat % 2 ^ 52 = 0 then .zero else .finite (x.toBits.toNat % 2 ^ 52) (-1074)
    else .finite (x.toBits.toNat % 2 ^ 52 + 2 ^ 52)
      (Int.ofNat (x.toBits.toNat / 2 ^ 52 % 2 ^ 11) - 1075)) = _ at hx
  have hfraction : x.toBits.toNat % 2 ^ 52 < 2 ^ 52 := Nat.mod_lt _ (by decide)
  split_ifs at hx with hmax hinfinite hmin hzero <;> cases hx
  · exact ⟨by omega, by omega, le_rfl, .inr rfl⟩
  · refine ⟨by omega, by omega, ?_, .inl (by omega)⟩
    rw [Int.ofNat_eq_natCast]
    omega

theorem unpack_of_parts (hx : parts x = ⟨false, .finite m q⟩) :
    x.toModel.unpack = .finite .positive m q (canonical_of_parts hx).pos := by
  have h := parts_eq_ofUnpacked x
  rw [hx] at h
  cases hu : x.toModel.unpack with
  | finite s m' q' hm' =>
    rw [hu] at h
    cases s <;> cases h
    rfl
  | zero s | infinity s =>
    rw [hu] at h
    cases congrArg Parts.magnitude h
  | notANumber =>
    rw [hu] at h
    cases h

theorem eq_zero_of_parts (hx : parts x = ⟨false, .zero⟩) : x = 0 := by
  have h := parts_eq_ofUnpacked x
  rw [hx] at h
  have hu : x.toModel.unpack = .zero .positive := by
    cases hu : x.toModel.unpack with
    | zero s =>
      rw [hu] at h
      cases s <;> cases h
      rfl
    | finite s | infinity s =>
      rw [hu] at h
      cases congrArg Parts.magnitude h
    | notANumber =>
      rw [hu] at h
      cases h
  rw [← ofModel_pack_unpack x, hu]
  decide

theorem RoundsTo.ge {v : ℚ} (h : RoundsTo m q v) (hc : Canonical m q) : 2 ^ (q - 1) ≤ v := by
  have hm : (1 : ℚ) ≤ m := by exact_mod_cast hc.pos
  have hlow := h.low
  have hhalf : 1 / 2 ≤ v / 2 ^ q := by split_ifs at hlow <;> linarith
  rw [zpow_sub_one₀ two_ne_zero]
  rw [le_div_iff₀ (zpow_pos two_pos q)] at hhalf
  linarith

/-- A number that rounds to a double is not so small that it counts as zero. -/
theorem scale_le (hc : Canonical m q) (hv : RoundsTo m q (n / 10 ^ k)) :
    (k : ℤ) ≤ 2 ^ 11 + n.log2 := by
  have hnum : (n : ℚ) ≤ 2 ^ (n.log2 + 1 : ℤ) := by
    exact_mod_cast (Nat.lt_log2_self (n := n)).le
  have hden : (2 : ℚ) ^ (3 * k : ℤ) ≤ 10 ^ k := by
    have hpow : (2 : ℚ) ^ (3 * k : ℤ) = 8 ^ k := by
      rw [zpow_mul, zpow_natCast]
      norm_num
    rw [hpow]
    gcongr
    norm_num
  have hbound : (2 : ℚ) ^ (q - 1) ≤ 2 ^ (n.log2 + 1 - 3 * k : ℤ) := by
    refine (hv.ge hc).trans ?_
    rw [zpow_sub₀ two_ne_zero]
    gcongr
  have := (zpow_le_zpow_iff_right₀ one_lt_two).1 hbound
  have := hc.ge
  omega

theorem ne_zero_of_roundsTo (hc : Canonical m q) (hv : RoundsTo m q (n / 10 ^ k)) : n ≠ 0 := by
  rintro rfl
  have hpos := (zpow_pos two_pos (q - 1)).trans_le (hv.ge hc)
  simp at hpos

/-- A number with more digits than a double has is rounded by its unpacked form. -/
theorem ofScientific_unpacked (hc : Canonical m q) (hv : RoundsTo m q (n / 10 ^ k))
    (hslow : ¬ (n < 2 ^ 53 ∧ k ≤ 22)) :
    UnpackedFloat.ofScientific .binary64 n (Int.negOfNat k) = .finite .positive m q hc.pos := by
  have hn := ne_zero_of_roundsTo hc hv
  cases k with
  | zero =>
    rw [pow_zero, div_one] at hv
    have hbig : 2 ^ 53 ≤ n := by omega
    have hq : 0 < q := by
      have hlt : (2 : ℚ) ^ (53 : ℤ) < 2 ^ (53 + q) :=
        lt_of_le_of_lt (by exact_mod_cast hbig) (hv.lt hc)
      have := (zpow_lt_zpow_iff_right₀ one_lt_two).1 hlt
      omega
    have hvalue : ((n * 2 ^ 53 : ℕ) : ℚ) * 2 ^ (-53 : ℤ) = n := by
      push_cast
      rw [mul_assoc]
      norm_num
    change UnpackedFloat.ofScientific .binary64 n 0 = _
    rw [ofScientific_zero hn]
    exact roundWithAccuracy_eq hc (a := (n * 2 ^ 53 : ℕ)) rfl (hvalue ▸ hv) (by omega)
      fun _ => .inr (by omega)
  | succ k =>
    have hquotient : RoundsTo m q (n * 2 ^ (0 : ℤ) / ((10 ^ (k + 1) : ℕ) * 2 ^ (0 : ℤ))) := by
      simpa using hv
    have hdiv := div_eq (Nat.pos_of_ne_zero hn) (Nat.pow_pos (by decide)) hc hquotient
    have hbits : (2 : ℤ) ^ Format.binary64.exponentBits = 2 ^ 11 := rfl
    have hscale := scale_le hc hv
    have hexp : (-Int.negOfNat (k + 1)).toNat = k + 1 := rfl
    rw [Int.negOfNat_eq, Int.ofNat_eq_natCast] at hexp ⊢
    rw [UnpackedFloat.ofScientific, dif_neg hn, if_neg (by omega), if_neg (by omega),
      if_neg (by omega)]
    simp only [hexp]
    exact hdiv

/-- Digits with a point among them stand for the double that their value lies nearest to. -/
theorem ofScientific_eq (hx : parts x = ⟨false, .finite m q⟩) (hv : RoundsTo m q (n / 10 ^ k)) :
    Float.ofScientific n true k = x := by
  have hc := canonical_of_parts hx
  rw [← ofModel_pack_unpack x, unpack_of_parts hx]
  by_cases hfast : n < 2 ^ 53 ∧ k ≤ 22
  · -- both numbers are doubles, and these are divided
    have hsize : k < Float.exactlyRepresentablePowersOfTen.size := Nat.lt_succ_of_le hfast.2
    obtain ⟨m₁, e₁, h₁, hu₁, hv₁⟩ :=
      (isWhole_toFloat (ne_zero_of_roundsTo hc hv) hfast.1).exists_eq
    obtain ⟨m₂, e₂, h₂, hu₂, hv₂⟩ := (isWhole_powers ⟨k, hsize⟩).exists_eq
    have hquotient : RoundsTo m q (m₁ * 2 ^ e₁ / (m₂ * 2 ^ e₂)) := by
      rw [hv₁, hv₂]
      exact_mod_cast hv
    have hdiv := div_eq h₁ h₂ hc hquotient
    rw [← hu₁, ← hu₂] at hdiv
    rw [Float.ofScientific, dif_pos hfast, if_pos rfl]
    exact congrArg (fun u => Float.ofModel (Float.Model.pack u)) hdiv
  · rw [Float.ofScientific, dif_neg hfast, if_pos rfl]
    exact congrArg (fun u => Float.ofModel (Float.Model.pack u))
      (ofScientific_unpacked hc hv hfast)

end Scientific

/-- A number that is spelled with digits and a point may be too great for a double, and is then
infinite; but it is never a NaN. -/
theorem isNaN_ofScientific (n k : ℕ) : (Float.ofScientific n true k).isNaN = false := by
  unfold Float.ofScientific
  split
  · rename_i hfast
    have hsize : k < Float.exactlyRepresentablePowersOfTen.size := Nat.lt_succ_of_le hfast.2
    obtain ⟨m, e, hm, hpower, -⟩ := (isWhole_powers ⟨k, hsize⟩).exists_eq
    change Float.exactlyRepresentablePowersOfTen[k].toModel.unpack = _ at hpower
    refine isNaN_unpack_pack ?_
    change (UnpackedFloat.div .binary64 n.toUInt64.toFloat.toModel.unpack
      Float.exactlyRepresentablePowersOfTen[k].toModel.unpack).isNaN = false
    rw [hpower]
    exact isNaN_div_finite (isNaN_unpack_pack (isNaN_ofNat _)) hm
  · exact isNaN_unpack_pack (isNaN_unpacked_ofScientific _ _)

end RecordPath.Decimal
