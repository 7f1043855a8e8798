import Mathlib
import RecordPath.Decimal.Double

-- What packing and unpacking make of each other is in no part of the library but the whole.

namespace RecordPath.Decimal

open Float.Model UnpackedFloat

section Bits

variable (b : BitVec 64)

theorem toNat_unpackMantissa :
    (@unpackMantissa .binary64 b).toNat = b.toNat % 2 ^ 52 := by
  change (BitVec.extractLsb 51 0 b).toNat = _
  rw [BitVec.extractLsb_toNat, Nat.shiftRight_zero]

theorem toNat_unpackExponent :
    (@unpackExponent .binary64 b).toNat = b.toNat / 2 ^ 52 % 2 ^ 11 := by
  change (BitVec.extractLsb 62 52 b).toNat = _
  rw [BitVec.extractLsb_toNat, Nat.shiftRight_eq_div_pow]

theorem toNat_unpackSign : (@unpackSign .binary64 b).toNat = b.toNat / 2 ^ 63 := by
  change (BitVec.extractLsb 63 63 b).toNat = _
  rw [BitVec.extractLsb_toNat, Nat.shiftRight_eq_div_pow]
  exact Nat.mod_eq_of_lt (by have := b.isLt; omega)

end Bits

def isNegative : Sign → Bool
  | .negative => true
  | .positive => false

def Parts.ofUnpacked : UnpackedFloat → Parts
  | .notANumber => ⟨false, .nan⟩
  | .infinity s => ⟨isNegative s, .infinite⟩
  | .zero s => ⟨isNegative s, .zero⟩
  | .finite s m e _ => ⟨isNegative s, .finite m e⟩

theorem isNegative_ofBitVec (b : BitVec 1) : isNegative (Sign.ofBitVec b) = (b.toNat == 1) := by
  decide +revert

theorem toNat_append_one (m : BitVec 52) : (1#1 ++ m).toNat = m.toNat + 2 ^ 52 := by
  rw [BitVec.toNat_append, ← Nat.shiftLeft_add_eq_or_of_lt m.isLt, Nat.shiftLeft_eq]
  exact Nat.add_comm _ _

theorem eq_neg_one_iff (e : BitVec 11) : e = -1#11 ↔ e.toNat = 2047 :=
  BitVec.toNat_inj.symm

theorem eq_zero_iff {n : Nat} (b : BitVec n) : b = 0#n ↔ b.toNat = 0 := by
  rw [← BitVec.toNat_inj, BitVec.toNat_zero]

theorem parts_eq_ofUnpacked (x : Float) : parts x = .ofUnpacked x.toModel.unpack := by
  obtain ⟨⟨bits, hvalid⟩⟩ := x
  have hm := toNat_unpackMantissa bits.toBitVec
  have he := toNat_unpackExponent bits.toBitVec
  have hs := toNat_unpackSign bits.toBitVec
  have hnan := hvalid.eq_packedNaN
  change _ = Parts.ofUnpacked (UnpackedFloat.unpack .binary64 bits.toBitVec)
  unfold parts
  change Parts.mk (bits.toBitVec.toNat / 2 ^ 63 == 1)
    (if bits.toBitVec.toNat / 2 ^ 52 % 2 ^ 11 = 2047 then
        if bits.toBitVec.toNat % 2 ^ 52 = 0 then .infinite else .nan
      else if bits.toBitVec.toNat / 2 ^ 52 % 2 ^ 11 = 0 then
        if bits.toBitVec.toNat % 2 ^ 52 = 0 then .zero
        else .finite (bits.toBitVec.toNat % 2 ^ 52) (-1074)
      else .finite (bits.toBitVec.toNat % 2 ^ 52 + 2 ^ 52)
        (Int.ofNat (bits.toBitVec.toNat / 2 ^ 52 % 2 ^ 11) - 1075)) = _
  rw [← hm, ← he, ← hs, UnpackedFloat.unpack]
  simp only [← eq_neg_one_iff, ← eq_zero_iff, ← isNegative_ofBitVec]
  by_cases hmax : @unpackExponent .binary64 bits.toBitVec = -1#11
  · by_cases hzero : @unpackMantissa .binary64 bits.toBitVec = 0#52
    · simp only [hmax, hzero, if_true, Parts.ofUnpacked]
    · -- the one pattern for a NaN has no sign
      have hpattern := hnan hmax hzero
      simp only [hmax, hzero, if_true, if_false, Parts.ofUnpacked]
      rw [hpattern]
      rfl
  · by_cases hmin : @unpackExponent .binary64 bits.toBitVec = 0#11
    · have hne : 0#11 ≠ -1#11 := by decide
      by_cases hzero : @unpackMantissa .binary64 bits.toBitVec = 0#52
      · simp only [hmin, hne, hzero, if_true, if_false, dif_pos, Parts.ofUnpacked]
      · simp only [hmin, hne, hzero, if_true, if_false, Parts.ofUnpacked]
        rfl
    · simp only [hmax, hmin, if_false, Parts.ofUnpacked, toNat_append_one]
      rfl

/-- A double is what its unpacked form is packed to. -/
theorem ofModel_pack_unpack (x : Float) :
    Float.ofModel (Float.Model.pack x.toModel.unpack) = x := by
  obtain ⟨⟨bits, hvalid⟩⟩ := x
  refine congrArg Float.ofModel ?_
  rw [Float.Model.mk.injEq]
  exact congrArg UInt64.ofBitVec (pack_unpack_of_valid hvalid)

section Equality

variable {a b : UnpackedFloat} {x y z : Float}

/-- Two numbers compare equal if they are the same, or if they are both zero; a NaN compares equal
to nothing. -/
theorem compare_eq_iff : a.compare b = some .eq ↔
    a = b ∧ a ≠ .notANumber ∨ (∃ s, a = .zero s) ∧ ∃ s, b = .zero s := by
  constructor
  · intro h
    cases a with
    | notANumber => cases h
    | zero s =>
      cases b with
      | zero t => exact .inr ⟨⟨s, rfl⟩, t, rfl⟩
      | infinity t | finite t => cases t <;> cases h
      | notANumber => cases h
    | infinity s =>
      cases b with
      | infinity t => cases s <;> cases t <;> cases h <;> exact .inl ⟨rfl, nofun⟩
      | zero t | finite t => cases s <;> cases h
      | notANumber => cases s <;> cases h
    | finite s m e =>
      cases b with
      | finite t n f =>
        obtain ⟨rfl, he⟩ : s = t ∧ (compare e f).then (compare m n) = .eq := by
          cases s <;> cases t <;> try cases h
          all_goals exact ⟨rfl, by simpa [UnpackedFloat.compare] using h⟩
        obtain ⟨hexponent, hmantissa⟩ := Ordering.then_eq_eq.1 he
        obtain rfl := Std.LawfulEqOrd.eq_of_compare hexponent
        obtain rfl := Std.LawfulEqOrd.eq_of_compare hmantissa
        exact .inl ⟨rfl, nofun⟩
      | zero t | infinity t => cases s <;> cases t <;> cases h
      | notANumber => cases s <;> cases h
  · rintro (⟨rfl, h⟩ | ⟨⟨s, rfl⟩, t, rfl⟩)
    · cases a with
      | notANumber => exact absurd rfl h
      | zero s => rfl
      | infinity s => cases s <;> rfl
      | finite s => cases s <;> simp [UnpackedFloat.compare]
    · rfl

theorem beq_eq_true_iff :
    (x == y) = true ↔ x.toModel.unpack.compare y.toModel.unpack = some .eq := by
  change (x.toModel.unpack.compare y.toModel.unpack == some .eq) = true ↔ _
  exact beq_iff_eq

theorem beq_self (h : x.isNaN = false) : (x == x) = true := by
  refine beq_eq_true_iff.2 (compare_eq_iff.2 (.inl ⟨rfl, fun hx => ?_⟩))
  change x.toModel.unpack.isNaN = false at h
  rw [hx] at h
  cases h

theorem beq_symm (h : (x == y) = true) : (y == x) = true := by
  rw [beq_eq_true_iff, compare_eq_iff] at h ⊢
  exact h.imp (fun ⟨he, hne⟩ => ⟨he.symm, he ▸ hne⟩) And.symm

theorem beq_trans (h : (x == y) = true) (h' : (y == z) = true) : (x == z) = true := by
  rw [beq_eq_true_iff, compare_eq_iff] at h h' ⊢
  rcases h with ⟨he, -⟩ | ⟨hx, hy⟩
  · rw [he]
    exact h'
  · rcases h' with ⟨he, -⟩ | ⟨-, hz⟩
    · exact .inr ⟨hx, he ▸ hy⟩
    · exact .inr ⟨hx, hz⟩

theorem eq_zero_of_zero_beq {x : Float} (h : ((0 : Float) == x) = true) : x = 0 ∨ x = -0 := by
  obtain ⟨hx, -⟩ | ⟨-, s, hx⟩ := compare_eq_iff.1 (beq_eq_true_iff.1 h)
  · rw [← ofModel_pack_unpack x, ← hx]
    exact .inl (ofModel_pack_unpack 0)
  · rw [← ofModel_pack_unpack x, hx]
    cases s <;> decide

end Equality

section Sign

def Unsigned : UnpackedFloat → Prop
  | .notANumber => True
  | .infinity s | .zero s | .finite s .. => s = .positive

theorem unsigned_unpack {b : BitVec 64} (h : @unpackSign .binary64 b = 0#1) :
    Unsigned (UnpackedFloat.unpack .binary64 b) := by
  have hs : Sign.ofBitVec (@unpackSign .binary64 b) = .positive := by
    rw [h]
    rfl
  rw [UnpackedFloat.unpack]
  dsimp only
  split_ifs
  all_goals first | exact hs | trivial

theorem unpackSign_pack {u : UnpackedFloat} (h : Unsigned u) :
    @unpackSign .binary64 (UnpackedFloat.pack .binary64 u) = 0#1 := by
  have hcomponents (e : BitVec 11) (m : BitVec 52) :
      @unpackSign .binary64 (packComponents .binary64 .positive e m) = 0#1 :=
    unpackSign_packComponents _ _ _
  rw [UnpackedFloat.pack.eq_def]
  cases u with
  | notANumber => exact hcomponents _ _
  | infinity s | zero s =>
    cases h
    exact hcomponents _ _
  | finite s =>
    cases h
    dsimp only
    split_ifs
    all_goals exact hcomponents _ _

theorem unsigned_roundWithAccuracy (m : Nat) (e : Int) (acc : Accuracy) :
    Unsigned (roundWithAccuracy .binary64 .positive m e acc) := by
  unfold roundWithAccuracy
  dsimp only
  split_ifs <;> rfl

theorem unsigned_div {u v : UnpackedFloat} (hu : Unsigned u) (hv : Unsigned v) :
    Unsigned (UnpackedFloat.div .binary64 u v) := by
  cases u <;> cases v <;> first | trivial | (cases hu; cases hv)
  case finite.finite => exact unsigned_roundWithAccuracy _ _ _
  all_goals rfl

theorem unsigned_ofScientific (m : Nat) (e : Int) :
    Unsigned (UnpackedFloat.ofScientific .binary64 m e) := by
  unfold UnpackedFloat.ofScientific
  split_ifs
  case pos | pos | pos => rfl
  · exact unsigned_roundWithAccuracy _ _ _
  · exact unsigned_roundWithAccuracy _ _ _

theorem unsigned_ofNat (n : Nat) : Unsigned (UnpackedFloat.ofNat .binary64 n) := by
  unfold UnpackedFloat.ofNat UnpackedFloat.ofInt UnpackedFloat.normalize
  split
  · rename_i h
    rw [Int.compare_eq_lt] at h
    omega
  · rfl
  · exact unsigned_roundWithAccuracy _ _ _

theorem negative_ofModel_pack {u : UnpackedFloat} (h : Unsigned u) :
    (parts (Float.ofModel (Float.Model.pack u))).negative = false := by
  have hs := toNat_unpackSign (UnpackedFloat.pack .binary64 u)
  rw [unpackSign_pack h] at hs
  unfold parts
  change ((UnpackedFloat.pack .binary64 u).toNat / 2 ^ 63 == 1) = false
  rw [← hs]
  rfl

theorem unsigned_powers :
    ∀ p ∈ Float.exactlyRepresentablePowersOfTen.toList, Unsigned p.toModel.unpack := by
  intro p hp
  refine unsigned_unpack ?_
  revert p
  decide +kernel

theorem negative_ofScientific (m k : Nat) :
    (parts (Float.ofScientific m true k)).negative = false := by
  unfold Float.ofScientific
  split
  · refine negative_ofModel_pack (unsigned_div ?_ (unsigned_powers _ (Array.getElem_mem_toList _)))
    exact unsigned_unpack (unpackSign_pack (unsigned_ofNat _))
  · exact negative_ofModel_pack (unsigned_ofScientific _ _)

end Sign

section NaN

theorem isNaN_unpack_packComponents {s : Sign} {e : BitVec 11} {m : BitVec 52}
    (h : e = -1#11 → m = 0#52) :
    (UnpackedFloat.unpack .binary64 (packComponents .binary64 s e m)).isNaN = false := by
  rw [UnpackedFloat.unpack]
  simp only [unpackMantissa_packComponents, unpackExponent_packComponents]
  split_ifs with he hm
  · rfl
  · exact absurd (h he) hm
  · rfl
  · rfl
  · rfl

theorem isNaN_unpack_pack {u : UnpackedFloat} (h : u.isNaN = false) :
    (Float.Model.pack u).unpack.isNaN = false := by
  change (UnpackedFloat.unpack .binary64 (UnpackedFloat.pack .binary64 u)).isNaN = false
  rw [UnpackedFloat.pack.eq_def]
  cases u with
  | notANumber => cases h
  | infinity s => exact isNaN_unpack_packComponents fun _ => rfl
  | zero s => exact isNaN_unpack_packComponents nofun
  | finite s m e hm =>
    dsimp only
    split_ifs with hgreat
    · exact isNaN_unpack_packComponents fun _ => rfl
    · -- the greatest biased exponent, which NaNs have, is packed as infinity
      refine isNaN_unpack_packComponents fun he => ?_
      have hbits := congrArg BitVec.toNat he
      rw [BitVec.toNat_ofNat] at hbits
      change _ % 2 ^ 11 = 2047 at hbits
      change ¬ 2 ^ 11 ≤ _ at hgreat
      omega
    · exact isNaN_unpack_packComponents nofun

theorem isNaN_roundWithAccuracy (s : Sign) (m : Nat) (e : Int) (acc : Accuracy) :
    (roundWithAccuracy .binary64 s m e acc).isNaN = false := by
  unfold roundWithAccuracy
  dsimp only
  split_ifs <;> rfl

theorem isNaN_ofNat (n : Nat) : (UnpackedFloat.ofNat .binary64 n).isNaN = false := by
  unfold UnpackedFloat.ofNat UnpackedFloat.ofInt UnpackedFloat.normalize
  split
  · exact isNaN_roundWithAccuracy _ _ _ _
  · rfl
  · exact isNaN_roundWithAccuracy _ _ _ _

theorem isNaN_div_finite {u : UnpackedFloat} (hu : u.isNaN = false) {s : Sign} {m : Nat} {e : Int}
    (hm : 0 < m) : (UnpackedFloat.div .binary64 u (.finite s m e hm)).isNaN = false := by
  cases u with
  | notANumber => cases hu
  | infinity t | zero t => rfl
  | finite t n f hn => exact isNaN_roundWithAccuracy _ _ _ _

theorem isNaN_unpacked_ofScientific (m : Nat) (e : Int) :
    (UnpackedFloat.ofScientific .binary64 m e).isNaN = false := by
  unfold UnpackedFloat.ofScientific
  split_ifs
  case pos | pos | pos => rfl
  · exact isNaN_roundWithAccuracy _ _ _ _
  · exact isNaN_roundWithAccuracy _ _ _ _

end NaN

end RecordPath.Decimal
