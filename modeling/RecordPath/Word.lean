namespace RecordPath

def signed? (n : Int) : Option Int64 :=
  if -0x8000000000000000 ≤ n ∧ n < 0x8000000000000000 then some (Int64.ofInt n) else none

def unsigned? (n : Int) : Option UInt64 :=
  if 0 ≤ n ∧ n < 0x10000000000000000 then some (UInt64.ofNat n.toNat) else none

theorem toInt_of_signed? {n : Int} {w : Int64} (h : signed? n = some w) : w.toInt = n := by
  unfold signed? at h
  split at h
  · cases h
    rw [Int64.toInt_ofInt, Int64.size, Int.bmod_eq_of_le] <;> omega
  · cases h

theorem signed?_toInt (w : Int64) : signed? w.toInt = some w := by
  have h := w.le_toInt
  have h' := w.toInt_lt
  rw [signed?, if_pos ⟨h, h'⟩, Int64.ofInt_toInt]

theorem toNat_of_unsigned? {n : Int} {w : UInt64} (h : unsigned? n = some w) : w.toNat = n := by
  unfold unsigned? at h
  split at h
  · cases h
    rw [UInt64.toNat_ofNat_of_lt'] <;> simp [UInt64.size] <;> omega
  · cases h

end RecordPath
