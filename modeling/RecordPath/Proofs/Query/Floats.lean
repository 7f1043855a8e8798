import RecordPath.Proofs.Decimal.Digits
import RecordPath.Proofs.Decimal.Nearest
import RecordPath.Proofs.Query.WellFormed
import RecordPath.Proofs.Token.Lexing

namespace RecordPath

variable {x : Float}

theorem readsBack_of_spells {v : ℚ} (h : Decimal.Spells (queryFloat.text x).toList v)
    (hread : ∀ n k : ℕ, (n / 10 ^ k : ℚ) = v → Float.ofScientific n true k = x) :
    ReadsBack x := by
  obtain ⟨whole, fraction, htext, -, hw, hf, hv⟩ := Scalar.exists_literalText h
  rw [ReadsBack, htext, Token.ofRun?_point hw hf, hread _ _ hv]

/-- A finite double without a sign is read back, as its digits stand for a number that rounds to
it. -/
theorem readsBack_of_isFinite (hx : Decimal.isFinite x = true)
    (hs : (Decimal.parts x).negative = false) : ReadsBack x := by
  obtain hzero | ⟨m, q, hfinite⟩ := Decimal.parts_of_isFinite hx hs
  · rw [Decimal.eq_zero_of_parts hzero]
    decide
  · have hc := Decimal.canonical_of_parts hfinite
    have hround := Decimal.roundsTo_shortest queryFloat.tie hc
    refine readsBack_of_spells (Decimal.Layout.spells_text rfl (fun _ => rfl) hfinite) ?_
    intro n k hv
    exact Decimal.ofScientific_eq hfinite (hv ▸ hround)

end RecordPath
