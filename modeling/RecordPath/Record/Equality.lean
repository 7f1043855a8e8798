import RecordPath.Record.Value

namespace RecordPath.Value

mutual

/-- Doubles compare as numbers, so a NaN differs from itself; but what shares an identity is equal
whatever it holds. -/
def same : Value → Value → Bool
  | bool a, bool b => a == b
  | int a, int b => a == b
  | uint a, uint b => a == b
  | float a, float b => a == b
  | string a, string b => a == b
  | bytes a, bytes b => a == b
  | message ⟨i, t, xs⟩, message ⟨j, u, ys⟩ => i == j || (t.name == u.name && sameSlots xs ys)
  | list ⟨i, xs⟩, list ⟨j, ys⟩ => i == j || sameItems xs ys
  | map ⟨i, k, xs⟩, map ⟨j, l, ys⟩ => i == j || (k == l && sameEntries xs ys)
  | _, _ => false
termination_by structural v => v

def sameSlots : List (Option Value) → List (Option Value) → Bool
  | [], [] => true
  | none :: xs, none :: ys => sameSlots xs ys
  | some x :: xs, some y :: ys => same x y && sameSlots xs ys
  | _, _ => false
termination_by structural xs => xs

def sameItems : List Value → List Value → Bool
  | [], [] => true
  | x :: xs, y :: ys => same x y && sameItems xs ys
  | _, _ => false
termination_by structural xs => xs

def sameEntries : List (MapKey × Value) → List (MapKey × Value) → Bool
  | [], [] => true
  | (k, x) :: xs, (l, y) :: ys => k == l && same x y && sameEntries xs ys
  | _, _ => false
termination_by structural xs => xs

end

instance : BEq Value := ⟨same⟩

/-- Scalars that count as equal are the same, save that doubles compare as numbers. -/
theorem eq_of_beq_scalar {v w : Value} (hv : v.ident? = none) (h : (v == w) = true) :
    w = v ∨ ∃ x y, v = .float x ∧ w = .float y ∧ (x == y) = true := by
  replace h : v.same w = true := h
  cases v with
  | message | list | map => cases hv
  | float x =>
    cases w with
    | float y => exact .inr ⟨x, y, rfl, rfl, h⟩
    | _ => cases h
  | _ =>
    cases w <;> try cases h
    all_goals exact .inl (congrArg _ (beq_iff_eq.1 h).symm)

end RecordPath.Value
