import RecordPath.Proofs.Decimal.Shortest
import RecordPath.Scalar

namespace RecordPath

namespace Decimal

def pointValue (whole fraction : List Char) : ℚ :=
  Nat.ofDigitChars 10 (whole ++ fraction) 0 / 10 ^ fraction.length

/-- Digits, and maybe a point and more digits, that stand for a number. -/
def Spells (cs : List Char) (v : ℚ) : Prop :=
  ∃ whole fraction, whole ≠ [] ∧ (∀ c ∈ whole, c.isDigit = true) ∧
    (∀ c ∈ fraction, c.isDigit = true) ∧ pointValue whole fraction = v ∧
    (cs = whole ∧ fraction = [] ∨ cs = whole ++ '.' :: fraction)

theorem isDigit_of_mem_zero : ∀ c ∈ ['0'], c.isDigit = true := List.all_eq_true.1 rfl

theorem isDigit_of_mem_zeros (n : ℕ) : ∀ c ∈ List.replicate n '0', c.isDigit = true := by
  intro c hc
  rw [List.eq_of_mem_replicate hc]
  rfl

theorem pointValue_append_zeros (digits : List Char) (n : ℕ) :
    pointValue (digits ++ List.replicate n '0') [] = Nat.ofDigitChars 10 digits 0 * 10 ^ n := by
  rw [pointValue, List.append_nil, Nat.ofDigitChars_append, Nat.ofDigitChars_replicate_zero]
  push_cast
  rw [List.length_nil, pow_zero, div_one, mul_comm]

theorem pointValue_point_zero (whole : List Char) :
    pointValue whole ['0'] = pointValue whole [] := by
  have h := pointValue_append_zeros whole 1
  unfold pointValue at h ⊢
  simp only [List.append_nil, List.length_nil, pow_zero, div_one, List.replicate_one, pow_one,
    List.length_singleton] at h ⊢
  rw [h, mul_div_cancel_right₀ _ (by norm_num)]

namespace Layout

variable {l : Layout}

/-- Digits without an exponent part stand for their number times a power of ten. -/
theorem spells_positional (hl : l.pointsWhole = false) {digits : List Char}
    (hd : ∀ c ∈ digits, c.isDigit = true) (e : ℤ) :
    Spells (l.positional digits e)
      (Nat.ofDigitChars 10 digits 0 * 10 ^ (e + 1 - digits.length)) := by
  unfold positional
  by_cases he : e < 0
  · rw [if_pos he]
    refine ⟨['0'], List.replicate (-e - 1).toNat '0' ++ digits, by simp, isDigit_of_mem_zero, ?_,
      ?_, .inr rfl⟩
    · intro c hc
      exact (List.mem_append.1 hc).elim (isDigit_of_mem_zeros _ c) (hd c)
    · have hzeros : ['0'] ++ List.replicate (-e - 1).toNat '0' =
          List.replicate ((-e - 1).toNat + 1) '0' := rfl
      have hexp : e + 1 - digits.length = -((-e - 1).toNat + digits.length : ℕ) := by omega
      rw [pointValue, ← List.append_assoc, hzeros, Nat.ofDigitChars_append,
        Nat.ofDigitChars_replicate_zero, mul_zero, hexp, zpow_neg, zpow_natCast,
        List.length_append, List.length_replicate, div_eq_mul_inv]
  · rw [if_neg he]
    dsimp only
    generalize hn : (e + 1).toNat = n
    refine ⟨digits.take n ++ List.replicate (n - digits.length) '0', digits.drop n, ?_, ?_,
      fun c hc => hd c (List.mem_of_mem_drop hc), ?_, ?_⟩
    · -- there are as many digits before the point as the exponent asks for
      intro hnil
      have hlen := congrArg List.length hnil
      simp only [List.length_append, List.length_take, List.length_replicate,
        List.length_nil] at hlen
      omega
    · intro c hc
      exact (List.mem_append.1 hc).elim (fun hc => hd c (List.mem_of_mem_take hc))
        (isDigit_of_mem_zeros _ c)
    · by_cases hlen : digits.length ≤ n
      · have hexp : e + 1 - digits.length = (n - digits.length : ℕ) := by omega
        rw [List.take_of_length_le hlen, List.drop_of_length_le hlen, pointValue_append_zeros,
          hexp, zpow_natCast]
      · have hexp : e + 1 - digits.length = -(digits.length - n : ℕ) := by omega
        have hzero : n - digits.length = 0 := by omega
        rw [hzero, List.replicate_zero, List.append_nil, pointValue, List.take_append_drop,
          List.length_drop, hexp, zpow_neg, zpow_natCast, div_eq_mul_inv]
    · by_cases hfraction : (digits.drop n).isEmpty
      · rw [if_pos hfraction, hl]
        exact .inl ⟨List.append_nil _, List.isEmpty_iff.1 hfraction⟩
      · rw [if_neg hfraction]
        exact .inr rfl

theorem exists_append_zeros (all : List Char) :
    ∃ n, all = (all.reverse.dropWhile (· == '0')).reverse ++ List.replicate n '0' := by
  refine ⟨(all.reverse.takeWhile (· == '0')).length, ?_⟩
  have hzeros : all.reverse.takeWhile (· == '0') =
      List.replicate (all.reverse.takeWhile (· == '0')).length '0' := by
    refine List.eq_replicate_of_mem fun c hc => ?_
    exact beq_iff_eq.1 (List.mem_takeWhile_imp (p := (· == '0')) hc)
  rw [← List.reverse_replicate, ← hzeros, ← List.reverse_append, List.takeWhile_append_dropWhile,
    List.reverse_reverse]

/-- The digits of a number stand for that number, with or without an exponent. -/
theorem spells_magnitude (hl : l.pointsWhole = false) (hp : ∀ e, l.isPositional e = true)
    (d : Digits) : Spells (l.magnitude d) d.value := by
  have hdigits : ∀ c ∈ Nat.toDigits 10 d.significand, c.isDigit = true := fun c hc =>
    Nat.isDigit_of_mem_toDigits (by decide) (by decide) hc
  have hall : Nat.ofDigitChars 10 (Nat.toDigits 10 d.significand) 0 = d.significand :=
    Nat.ofDigitChars_ten_toDigits
  obtain ⟨n, hn⟩ := exists_append_zeros (Nat.toDigits 10 d.significand)
  unfold magnitude
  dsimp only
  rw [if_pos (hp _)]
  generalize Nat.toDigits 10 d.significand = all at hdigits hall hn ⊢
  generalize (all.reverse.dropWhile (· == '0')).reverse = digits at hn ⊢
  subst hn
  rw [Nat.ofDigitChars_append, Nat.ofDigitChars_replicate_zero] at hall
  have hvalue : d.value = Nat.ofDigitChars 10 digits 0 *
      10 ^ ((digits ++ List.replicate n '0').length - 1 + d.exponent + 1 - digits.length : ℤ) := by
    have hexp : ((digits ++ List.replicate n '0').length - 1 + d.exponent + 1 - digits.length : ℤ) =
        n + d.exponent := by
      rw [List.length_append, List.length_replicate]
      omega
    rw [Digits.value, ← hall, hexp, zpow_add₀ (by norm_num), zpow_natCast]
    push_cast
    ring
  rw [hvalue]
  exact spells_positional hl (fun c hc => hdigits c (List.mem_append_left _ hc)) _

section Text

variable (hl : l.pointsWhole = false) (hp : ∀ e, l.isPositional e = true) {x : Float}
include hl hp

theorem spells_text {m : ℕ} {q : ℤ} (hx : parts x = ⟨false, .finite m q⟩) :
    Spells (l.text x).toList (shortest l.tie m q).value := by
  unfold text
  rw [hx]
  simpa using spells_magnitude hl hp (shortest l.tie m q)

omit hp in
theorem spells_text_zero (hx : parts x = ⟨false, .zero⟩) : Spells (l.text x).toList 0 := by
  have h := spells_positional hl isDigit_of_mem_zero 0
  have hzero : Nat.ofDigitChars 10 ['0'] 0 = 0 := rfl
  rw [hzero, Nat.cast_zero, zero_mul] at h
  unfold text
  rw [hx]
  simpa using h

end Text

end Layout

theorem parts_of_isFinite {x : Float} (hx : isFinite x = true) (hs : (parts x).negative = false) :
    parts x = ⟨false, .zero⟩ ∨ ∃ m q, parts x = ⟨false, .finite m q⟩ := by
  unfold isFinite at hx
  generalize parts x = p at hx hs ⊢
  obtain ⟨negative, magnitude⟩ := p
  obtain rfl : negative = false := hs
  cases magnitude with
  | zero => exact .inl rfl
  | finite m q => exact .inr ⟨m, q, rfl⟩
  | nan => cases hx
  | infinite => cases hx

theorem exists_spells_queryFloat {x : Float} (hx : isFinite x = true)
    (hs : (parts x).negative = false) : ∃ v, Spells (queryFloat.text x).toList v := by
  obtain hzero | ⟨m, q, hfinite⟩ := parts_of_isFinite hx hs
  · exact ⟨0, Layout.spells_text_zero rfl hzero⟩
  · exact ⟨_, Layout.spells_text rfl (fun _ => rfl) hfinite⟩

end Decimal

namespace Scalar

variable {x : Float}

theorem exists_literalText {v : ℚ} (h : Decimal.Spells (queryFloat.text x).toList v) :
    ∃ whole fraction, (float x).literalText.toList = whole ++ '.' :: fraction ∧ whole ≠ [] ∧
      (∀ c ∈ whole, c.isDigit = true) ∧ (∀ c ∈ fraction, c.isDigit = true) ∧
      Decimal.pointValue whole fraction = v := by
  obtain ⟨whole, fraction, hne, hw, hf, hv, h⟩ := h
  rw [literalText]
  split
  · rename_i hpoint
    rcases h with ⟨h, -⟩ | h
    · rw [h] at hpoint
      exact absurd (hw _ hpoint) (by decide)
    · exact ⟨whole, fraction, h, hne, hw, hf, hv⟩
  · rename_i hpoint
    rcases h with ⟨h, rfl⟩ | h
    · refine ⟨whole, ['0'], by rw [String.toList_append, h]; rfl, hne, hw,
        Decimal.isDigit_of_mem_zero, ?_⟩
      rw [Decimal.pointValue_point_zero, hv]
    · exact absurd (h ▸ by simp) hpoint

/-- A finite double with no sign is spelled with digits before a point and behind it. -/
theorem literalText_float (hx : Decimal.isFinite x = true)
    (hs : (Decimal.parts x).negative = false) :
    ∃ whole fraction, (float x).literalText.toList = whole ++ '.' :: fraction ∧ whole ≠ [] ∧
      (∀ c ∈ whole, c.isDigit = true) ∧ ∀ c ∈ fraction, c.isDigit = true := by
  obtain ⟨v, h⟩ := Decimal.exists_spells_queryFloat hx hs
  obtain ⟨whole, fraction, htext, hne, hw, hf, -⟩ := exists_literalText h
  exact ⟨whole, fraction, htext, hne, hw, hf⟩

end Scalar

end RecordPath
