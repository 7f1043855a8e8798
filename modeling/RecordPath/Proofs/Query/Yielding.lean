import RecordPath.Proofs.Query.Climbing
import RecordPath.Proofs.Query.WellFormed

namespace RecordPath

namespace Reading

variable {α β : Type} {tokens us vs : List Located} {a : α} {b : β}

def Yields (r : Reading α tokens) (a : α) (us : List Located) : Prop :=
  r.result = .ok a ∧ r.rest = us

theorem yields_done (a : α) (tokens : List Located) : (done a tokens).Yields a tokens := ⟨rfl, rfl⟩

theorem Yields.after {r : Reading α us} (h : r.Yields a vs) (t : Located) :
    (r.after t).Yields a vs := h

theorem Yields.of_after {r : Reading α us} {t : Located} (h : (r.after t).Yields a vs) :
    r.Yields a vs := h

theorem Yields.bind {r : Reading α tokens} (h : r.Yields a us)
    {f : α → (us : List Located) → us <:+ tokens → Reading β us}
    (hf : ∀ hs, (f a us hs).Yields b vs) : (r.bind f).Yields b vs := by
  obtain ⟨hr, rfl⟩ := h
  obtain ⟨hres, hrest⟩ := bind_of_ok (f := f) hr
  exact ⟨hres.trans (hf r.suffix).1, hrest.trans (hf r.suffix).2⟩

theorem Yields.map {r : Reading α tokens} (h : r.Yields a us) (f : α → β) :
    (r.map f).Yields (f a) us := by
  refine ⟨?_, h.2⟩
  rw [result_map, h.1]
  rfl

theorem Yields.suffix {r : Reading α tokens} (h : r.Yields a us) : us <:+ tokens := h.2 ▸ r.suffix

theorem Yields.of_bind {r : Reading α tokens}
    {f : α → (us : List Located) → us <:+ tokens → Reading β us} (h : (r.bind f).Yields b vs) :
    ∃ a us, ∃ hs : us <:+ tokens, r.Yields a us ∧ (f a us hs).Yields b vs := by
  obtain ⟨a, hr, hres, hrest⟩ := of_bind_eq_ok h.1
  exact ⟨a, r.rest, r.suffix, ⟨hr, rfl⟩, hres, hrest.symm.trans h.2⟩

theorem Yields.of_map {r : Reading α tokens} {f : α → β} (h : (r.map f).Yields b us) :
    ∃ a, r.Yields a us ∧ f a = b := by
  obtain ⟨hres, hrest⟩ := h
  rw [result_map] at hres
  cases hr : r.result with
  | error e =>
    rw [hr] at hres
    cases hres
  | ok a =>
    rw [hr] at hres
    cases hres
    exact ⟨a, ⟨hr, hrest⟩, rfl⟩

theorem yields_map_iff {r : Reading α tokens} {f : α → β} :
    (r.map f).Yields b us ↔ ∃ a, r.Yields a us ∧ f a = b := by
  refine ⟨Yields.of_map, ?_⟩
  rintro ⟨a, h, rfl⟩
  exact h.map f

theorem Yields.unique {r : Reading α tokens} {a' : α} (h : r.Yields a us) (h' : r.Yields a' vs) :
    a = a' ∧ us = vs :=
  ⟨Except.ok.inj (h.1.symm.trans h'.1), h.2.symm.trans h'.2⟩

theorem Yields.of_done {a' : α} (h : (done a tokens).Yields a' us) : a = a' ∧ tokens = us := by
  obtain ⟨hres, hrest⟩ := h
  exact ⟨Except.ok.inj hres, hrest⟩

end Reading

namespace Grammar

variable {stop : Nat} {t : Located} {us vs tokens : List Located} {e l r : Expr}

theorem yields_closing {mark : Symbol} (fault : CompileFault) (ht : t.token = .symbol mark) :
    (closing stop mark fault (t :: us)).Yields () us := by
  rw [closing, if_pos ht]
  exact Reading.Yields.after (Reading.yields_done () us) t

theorem of_yields_closing {mark : Symbol} {fault : CompileFault} {u : Unit}
    (h : (closing stop mark fault tokens).Yields u us) :
    ∃ t, tokens = t :: us ∧ t.token = .symbol mark := by
  unfold closing at h
  split at h
  · cases h.1
  · rename_i t ws
    split at h
    · obtain ⟨-, rfl⟩ := h.of_after.of_done
      exact ⟨t, rfl, ‹_›⟩
    · cases h.1

/-- Where an operand was read, one could begin. -/
theorem endsOperand_of_yields (h : (operand stop tokens).Yields e us) :
    endsOperand tokens = false := by
  rw [Bool.eq_false_iff]
  intro he
  -- at every token at which no operand begins, reading one fails
  obtain ⟨h, -⟩ := h
  cases tokens with
  | nil =>
    rw [operand] at h
    cases h
  | cons t us =>
    have hfail : operand stop (t :: us) = .fail (unexpectedFront stop (t :: us)) (t :: us) := by
      rw [operand]
      cases ht : t.token with
      | symbol s => cases s <;> simp_all [endsOperand, UnaryOp.ofSymbol?]
      | endOfInput => rfl
      | _ => simp [endsOperand, ht] at he
    rw [hfail] at h
    cases h

theorem yields_expression {floor : Tier} (h : (operand stop tokens).Yields e us)
    (hs : Stops floor us) : (expression stop floor tokens).Yields e us := by
  rw [expression_eq]
  apply h.bind
  intro _
  rw [climb_of_stops e hs]
  exact Reading.yields_done e us

theorem yields_operand_unary {op : UnaryOp} (ht : t.token = .symbol op.symbol)
    (h : (operand stop us).Yields e vs) : (operand stop (t :: us)).Yields (.unary op e) vs := by
  have hexpr := (yields_expression h (stops_operand vs)).map (Expr.unary op)
  have hends := endsOperand_of_yields h
  rw [operand]
  cases op <;> simp only [ht, UnaryOp.symbol, UnaryOp.ofSymbol?, hends, Bool.false_eq_true,
    if_false] <;> exact hexpr.after t

theorem yields_operand_parenthesized {close : Located} (ht : t.token = .symbol .leftParen)
    (h : (expression stop .lowest us).Yields e (close :: vs))
    (hc : close.token = .symbol .rightParen) : (operand stop (t :: us)).Yields e vs := by
  rw [operand]
  simp only [ht]
  apply Reading.Yields.after
  apply h.bind
  intro _
  exact (yields_closing .missingParen hc).map fun _ => e

theorem yields_operand_literal {v : Scalar} (ht : t.token = v.token) :
    (operand stop (t :: us)).Yields (.literal v) us := by
  rw [operand]
  cases v <;> simp only [ht, Scalar.token] <;>
    exact (Reading.yields_done _ us).after t

end Grammar

end RecordPath
