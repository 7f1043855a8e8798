import RecordPath.Proofs.Query.Phrases

namespace RecordPath

def Token.goesOn (t : Token) : Bool :=
  (BinaryOp.ofToken? t).isSome || t = .symbol .leftParen || t = .symbol .comma

/-- The second tokens may take the place of the first behind a phrase: they start alike, or with
what does not go on with it. -/
def MayReplace (us vs : List Located) : Prop :=
  ∀ t ws, vs = t :: ws → us.head? = some t ∨ t.token.goesOn = false

theorem mayReplace_nil (us : List Located) : MayReplace us [] := by
  intro t ws h
  cases h

theorem mayReplace_cons (t : Located) (us vs : List Located) : MayReplace (t :: us) (t :: vs) := by
  rintro s ws ⟨⟩
  exact .inl rfl

theorem MayReplace.append {us vs : List Located} (h : MayReplace us vs) (xs : List Located) :
    MayReplace (xs ++ us) (xs ++ vs) := by
  cases xs with
  | nil => exact h
  | cons x xs => exact mayReplace_cons x _ _

/-- What no token in front of `us` is, no token in front of `vs` is, if it would go on. -/
theorem MayReplace.front_ne {us vs : List Located} (h : MayReplace us vs) {k : Token}
    (hk : k.goesOn = true) (hus : ∀ t ws, us = t :: ws → t.token ≠ k) :
    ∀ t ws, vs = t :: ws → t.token ≠ k := by
  rintro t ws rfl rfl
  rcases h t ws rfl with hhead | hstop
  · obtain ⟨us', rfl⟩ := List.head?_eq_some_iff.1 hhead
    exact hus t us' rfl rfl
  · rw [hk] at hstop
    cases hstop

theorem exists_of_suffix {xs us ws : List Located} (h : us <:+ ws) (h' : ws <:+ xs ++ us) :
    ∃ zs ys, xs = zs ++ ys ∧ ws = ys ++ us := by
  obtain ⟨ys, rfl⟩ := h
  obtain ⟨zs, hzs⟩ := h'
  rw [← List.append_assoc, List.append_cancel_right_eq] at hzs
  exact ⟨zs, ys, hzs.symm, rfl⟩

theorem exists_cons_of_suffix {xs us rest : List Located} {t : Located} (h : xs ++ us = t :: rest)
    (hs : us <:+ rest) : ∃ ys, xs = t :: ys ∧ rest = ys ++ us := by
  cases xs with
  | nil =>
    rw [List.nil_append] at h
    subst h
    exact absurd hs.length_le (Nat.not_succ_le_self _)
  | cons x xs =>
    obtain ⟨rfl, rfl⟩ := List.cons.inj h
    exact ⟨xs, rfl, rfl⟩

theorem exists_of_cons_suffix {xs us : List Located} {t : Located} (h : t :: us <:+ xs ++ us) :
    ∃ ys, xs = ys ++ [t] := by
  obtain ⟨ys, hys⟩ := h
  refine ⟨ys, (List.append_left_inj us).1 ?_⟩
  rw [← hys, List.append_assoc, List.singleton_append]

namespace Grammar

theorem Stops.replace {floor : Tier} {us vs : List Located} (h : Stops floor us)
    (hr : MayReplace us vs) : Stops floor vs := by
  rintro t ws op rfl hop
  rcases hr t ws rfl with hhead | hstop
  · obtain ⟨us', rfl⟩ := List.head?_eq_some_iff.1 hhead
    exact h t us' op rfl hop
  · simp [Token.goesOn, hop] at hstop

theorem replace_property {stop : Nat} (stop' : Nat) {xs us : List Located} (vs : List Located)
    {e : Expr} (h : (property stop (xs ++ us)).Yields e us) :
    (property stop' (xs ++ vs)).Yields e vs := by
  obtain ⟨t, htokens, hone⟩ := of_yields_property h
  obtain ⟨ys, rfl, hys⟩ := exists_cons_of_suffix htokens (List.suffix_refl us)
  obtain rfl : ys = [] := List.append_left_eq_self.1 hys.symm
  exact hone stop' vs

mutual

theorem replace_expression {stop : Nat} (stop' : Nat) {floor : Tier} {xs us vs : List Located}
    {e : Expr} (hr : MayReplace us vs) (h : (expression stop floor (xs ++ us)).Yields e us) :
    (expression stop' floor (xs ++ vs)).Yields e vs := by
  rw [expression_eq] at h ⊢
  obtain ⟨left, ws, hs, hleft, hclimb⟩ := h.of_bind
  obtain ⟨zs, ys, rfl, rfl⟩ := exists_of_suffix hclimb.suffix hs
  have hlength : (zs ++ ys).length = zs.length + ys.length := List.length_append
  rw [List.append_assoc] at hleft ⊢
  apply (replace_operand stop' (hr.append ys) hleft).bind
  intro _
  exact replace_climb stop' hr hclimb
termination_by 4 * xs.length + 1

theorem replace_climb {stop : Nat} (stop' : Nat) {floor : Tier} {left : Expr}
    {xs us vs : List Located} {e : Expr} (hr : MayReplace us vs)
    (h : (climb stop floor left (xs ++ us)).Yields e us) :
    (climb stop' floor left (xs ++ vs)).Yields e vs := by
  cases of_yields_climb h with
  | stops hs hrest =>
    obtain rfl : xs = [] := List.append_left_eq_self.1 hrest
    exact (Climb.stops (hs.replace hr) rfl).yields
  | turn htokens hop hle hright hclimb =>
    obtain ⟨ys, rfl, rfl⟩ := exists_cons_of_suffix htokens (hclimb.suffix.trans hright.suffix)
    obtain ⟨zs, ys, rfl, rfl⟩ := exists_of_suffix hclimb.suffix hright.suffix
    rw [List.append_assoc] at hright
    have hright' := replace_expression stop' (hr.append ys) hright
    rw [← List.append_assoc] at hright'
    exact (Climb.turn rfl hop hle hright' (replace_climb stop' hr hclimb)).yields
termination_by 4 * xs.length

theorem replace_operand {stop : Nat} (stop' : Nat) {xs us vs : List Located} {e : Expr}
    (hr : MayReplace us vs) (h : (operand stop (xs ++ us)).Yields e us) :
    (operand stop' (xs ++ vs)).Yields e vs := by
  obtain ⟨t, rest, htokens, hop⟩ := of_yields_operand h
  obtain ⟨ys, rfl, rfl⟩ := exists_cons_of_suffix htokens hop.suffix
  apply Operand.yields
  cases hop with
  | literal ht hrest =>
    obtain rfl : ys = [] := List.append_left_eq_self.1 hrest
    exact .literal ht rfl
  | named ht he => exact .named ht ((replace_named stop' hr (of_yields_named he)).yields _)
  | property ht he => exact .property ht (replace_property stop' vs he)
  | @parenthesized _ close ht he hc =>
    obtain ⟨zs, rfl⟩ := exists_of_cons_suffix he.suffix
    rw [List.append_assoc] at he
    have he' := replace_expression stop' (mayReplace_cons close us vs) he
    rw [List.append_cons] at he'
    exact .parenthesized ht he' hc
  | unary ht he => exact .unary ht (replace_operand stop' hr he)
termination_by 4 * xs.length

theorem replace_named {stop : Nat} (stop' : Nat) {name : String} {xs us vs : List Located}
    {e : Expr} (hr : MayReplace us vs) (h : Named stop name (xs ++ us) us e) :
    Named stop' name (xs ++ vs) vs e := by
  cases h with
  | property hrest hopen =>
    obtain rfl : xs = [] := List.append_left_eq_self.1 hrest
    exact .property rfl (hr.front_ne rfl hopen)
  | @call _ _ left close _ htokens hleft hf hargs hc harity =>
    obtain ⟨ys, rfl, rfl⟩ :=
      exists_cons_of_suffix htokens ((List.suffix_cons close us).trans hargs.suffix)
    obtain ⟨zs, rfl⟩ := exists_of_cons_suffix hargs.suffix
    rw [List.append_assoc] at hargs
    have hargs' := replace_arguments stop' vs hargs
    rw [List.append_cons] at hargs'
    exact .call rfl hleft hf hargs' hc harity
termination_by 4 * xs.length + 1

theorem replace_arguments {stop : Nat} (stop' : Nat) {close : Located} {xs us : List Located}
    (vs : List Located) {args : List Expr}
    (h : (arguments stop (xs ++ close :: us)).Yields args (close :: us)) :
    (arguments stop' (xs ++ close :: vs)).Yields args (close :: vs) := by
  have hfront : ∃ t ws ws', xs ++ close :: us = t :: ws ∧ xs ++ close :: vs = t :: ws' := by
    cases xs with
    | nil => exact ⟨close, us, vs, rfl, rfl⟩
    | cons x xs => exact ⟨x, _, _, rfl, rfl⟩
  obtain ⟨t, ws, ws', hws, hws'⟩ := hfront
  rw [hws, arguments] at h
  rw [hws', arguments]
  split at h
  · obtain ⟨rfl, hrest⟩ := h.of_done
    rw [if_pos ‹_›]
    rw [← hws] at hrest
    obtain rfl : xs = [] := List.append_left_eq_self.1 hrest
    rw [← hws']
    exact Reading.yields_done _ _
  · rw [if_neg ‹_›, ← hws']
    rw [← hws] at h
    exact replace_separated stop' (mayReplace_cons close us vs) h
termination_by 4 * xs.length + 3

theorem replace_separated {stop : Nat} (stop' : Nat) {xs us vs : List Located} {es : List Expr}
    (hr : MayReplace us vs) (h : (separated stop (xs ++ us)).Yields es us) :
    (separated stop' (xs ++ vs)).Yields es vs := by
  apply Separated.yields
  cases of_yields_separated h with
  | last he hus => exact .last (replace_expression stop' hr he) (hr.front_ne rfl hus)
  | @cons _ comma ws _ he hcomma hes =>
    obtain ⟨zs, ys, rfl, hys⟩ :=
      exists_of_suffix (hes.suffix.trans (List.suffix_cons comma ws)) he.suffix
    obtain ⟨ys, rfl, rfl⟩ := exists_cons_of_suffix hys.symm hes.suffix
    rw [List.append_assoc] at he ⊢
    exact .cons (replace_expression stop' (mayReplace_cons comma _ _) he) hcomma
      (replace_separated stop' hr hes)
termination_by 4 * xs.length + 2

end

end Grammar

end RecordPath
