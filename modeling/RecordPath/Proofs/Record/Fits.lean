import RecordPath.Proofs.Record.Workshop

namespace RecordPath

/-- A value in the form in which a single field of the kind stores it. -/
def FieldKind.Fits : FieldKind → Value → Prop
  | bool, v => ∃ b, v = .bool b
  | string, v => ∃ s, v = .string s
  | int, v => ∃ n, v = .int n
  | uint, v => ∃ n, v = .uint n
  | float, v => ∃ x, v = .float x
  | bytes, v => ∃ bs, v = .bytes bs
  | enum _, v => ∃ n, v = .int n
  | message name, v => ∃ m : Message, v = .message m ∧ m.type.name = name

namespace Field

variable {f : Field} {u v : Value}

theorem fits_acceptElement (h : f.acceptElement u = .ok v) : f.kind.Fits v := by
  unfold acceptElement at h
  dsimp only at h
  split at h
  · rename_i w hw
    cases h
    split at hw <;> rename_i hk
    -- values that were changed to the kind of the field come first
    case h_5 | h_7 | h_11 =>
      obtain ⟨n, -, rfl⟩ := Option.map_eq_some_iff.1 hw
      rw [hk]
      exact ⟨_, rfl⟩
    case h_12 =>
      split at hw <;> cases hw
      rename_i hn
      rw [hk]
      exact ⟨_, rfl, hn⟩
    case h_13 => cases hw
    all_goals
      cases hw
      rw [hk]
      exact ⟨_, rfl⟩
  · cases h

theorem fits_default (h : f.default? = some v) : f.kind.Fits v := by
  unfold default? at h
  split at h
  · cases hk : f.kind <;> rw [hk] at h <;> cases h <;> exact ⟨_, rfl⟩
  · cases h

end Field

/-- A single field holds, or defaults to, a value of the form that belongs to its kind. -/
theorem SlotsAccepted.fits {m : Message} {f : Field} {v : Value}
    (h : SlotsAccepted m.type m.slots) (hf : f ∈ m.type.fields) (hc : f.cardinality = .single)
    (hv : (m.stored? f).or f.default? = some v) : f.kind.Fits v := by
  rcases Option.or_eq_some_iff.1 hv with hs | ⟨-, hd⟩
  · obtain ⟨fresh, u, hu⟩ := h f hf v (m.slot_of_stored? hs)
    unfold Field.accept at hu
    rw [hc] at hu
    exact Field.fits_acceptElement hu
  · exact Field.fits_default hd

end RecordPath
