import Mathlib.Logic.Relator
import RecordPath.Record.Value

namespace RecordPath

/-- Identities that belong together one by one, the first ones drawn before `m` and the second ones
before `n`. -/
structure Pairing (ρ : Ident → Ident → Prop) (m n : Nat) : Prop where
  unique : Relator.BiUnique ρ
  below : ∀ i j, ρ i j → i.number < m ∧ j.number < n

theorem Pairing.draw {ρ : Ident → Ident → Prop} {m n : Nat} (h : Pairing ρ m n) :
    ∃ σ, Subrelation ρ σ ∧ Pairing σ (m + 1) (n + 1) ∧ σ ⟨m⟩ ⟨n⟩ := by
  refine ⟨fun i j => ρ i j ∨ i = ⟨m⟩ ∧ j = ⟨n⟩, .inl, ⟨⟨?_, ?_⟩, ?_⟩, .inr ⟨rfl, rfl⟩⟩
  · rintro i j k (hik | ⟨rfl, rfl⟩) (hjk | ⟨rfl, hk⟩)
    · exact h.unique.1 hik hjk
    · exact absurd (h.below _ _ hik).2 (by rw [hk]; exact Nat.lt_irrefl n)
    · exact absurd (h.below _ _ hjk).2 (Nat.lt_irrefl n)
    · rfl
  · rintro i j k (hij | ⟨rfl, rfl⟩) (hik | ⟨hi, rfl⟩)
    · exact h.unique.2 hij hik
    · exact absurd (h.below _ _ hij).1 (by rw [hi]; exact Nat.lt_irrefl m)
    · exact absurd (h.below _ _ hik).1 (Nat.lt_irrefl m)
    · rfl
  · rintro i j (hij | ⟨rfl, rfl⟩)
    · have := h.below i j hij
      omega
    · exact ⟨Nat.lt_succ_self m, Nat.lt_succ_self n⟩

namespace Alloc

variable {α β γ δ : Type} {R : (Ident → Ident → Prop) → α → β → Prop}
  {S : (Ident → Ident → Prop) → γ → δ → Prop} {ρ : Ident → Ident → Prop}

/-- Wherever the identities that `ρ` pairs were drawn before, the computations yield results that
are related by `R`, under a pairing that goes on from `ρ`. -/
def InStep (R : (Ident → Ident → Prop) → α → β → Prop) (ρ : Ident → Ident → Prop) (x : Alloc α)
    (y : Alloc β) : Prop :=
  ∀ m n, Pairing ρ m n →
    ∃ σ, Subrelation ρ σ ∧ Pairing σ (x.run m).2 (y.run n).2 ∧ R σ (x.run m).1 (y.run n).1

namespace InStep

theorem pure {a : α} {b : β} (h : R ρ a b) : InStep R ρ (Pure.pure a) (Pure.pure b) :=
  fun _ _ hρ => ⟨ρ, id, hρ, h⟩

theorem bind {x : Alloc α} {y : Alloc β} {f : α → Alloc γ} {g : β → Alloc δ}
    (hx : InStep R ρ x y)
    (hf : ∀ σ a b, Subrelation ρ σ → R σ a b → InStep S σ (f a) (g b)) :
    InStep S ρ (x >>= f) (y >>= g) := by
  intro m n hρ
  obtain ⟨σ, hσ, hpairing, hr⟩ := hx m n hρ
  obtain ⟨τ, hτ, hpairing, hs⟩ := hf σ _ _ hσ hr _ _ hpairing
  exact ⟨τ, fun h => hτ (hσ h), hpairing, hs⟩

/-- Nothing is said of the identities that stay free. -/
theorem freshIf (needed : Bool) :
    InStep (fun σ i j => needed = true → σ i j) ρ (Ident.freshIf needed)
      (Ident.freshIf needed) := by
  cases needed with
  | false => exact fun _ _ hρ => ⟨ρ, id, hρ, nofun⟩
  | true =>
    intro m n hρ
    obtain ⟨σ, hσ, hpairing, hij⟩ := hρ.draw
    exact ⟨σ, hσ, hpairing, fun _ => hij⟩

end InStep

end Alloc

end RecordPath
