import RecordPath.Proofs.Eval.Observation
import RecordPath.Search.Cost

namespace RecordPath

/-- The value with one and the same identity in place of any that a list or map has drawn since
`supply`. -/
def Value.eraseFresh (supply : Nat) : Value → Value
  | list l => if l.ident.number < supply then list l else list ⟨⟨supply⟩, l.items⟩
  | map m =>
    if m.ident.number < supply then map m else map ⟨⟨supply⟩, m.keyKind, m.entries⟩
  | v => v

namespace Value

variable {supply : Nat}

theorem eraseFresh_of_fresh_list {i j : Nat} (hi : supply ≤ i) (hj : supply ≤ j)
    (items : List Value) :
    (list ⟨⟨i⟩, items⟩).eraseFresh supply = (list ⟨⟨j⟩, items⟩).eraseFresh supply := by
  simp only [eraseFresh, if_neg (Nat.not_lt.2 hi), if_neg (Nat.not_lt.2 hj)]

theorem eraseFresh_of_fresh_map {i j : Nat} (hi : supply ≤ i) (hj : supply ≤ j) (kind : KeyKind)
    (entries : List (MapKey × Value)) :
    (map ⟨⟨i⟩, kind, entries⟩).eraseFresh supply =
      (map ⟨⟨j⟩, kind, entries⟩).eraseFresh supply := by
  simp only [eraseFresh, if_neg (Nat.not_lt.2 hi), if_neg (Nat.not_lt.2 hj)]

def unnamed : Value → Value
  | list l => list ⟨⟨0⟩, l.items⟩
  | map m => map ⟨⟨0⟩, m.keyKind, m.entries⟩
  | v => v

theorem unnamed_eraseFresh (v : Value) : (v.eraseFresh supply).unnamed = v.unnamed := by
  cases v with
  | list l => unfold eraseFresh; dsimp only; split <;> rfl
  | map m => unfold eraseFresh; dsimp only; split <;> rfl
  | _ => rfl

theorem looksLike_unnamed (v : Value) : v.unnamed.LooksLike v where
  property _ _ := by cases v <;> rfl
  builtin _ f := by cases f <;> cases v <;> rfl
  propertyType _ _ := by cases v <;> rfl

theorem unnamed_congr {v w : Value} (h : v.eraseFresh supply = w.eraseFresh supply) :
    v.unnamed = w.unnamed := by
  rw [← unnamed_eraseFresh v, h, unnamed_eraseFresh]

/-- Two values that erase to the same are the same, or lists of the same items, or maps of the
same entries. -/
theorem cases_of_eraseFresh {v w : Value} (h : v.eraseFresh supply = w.eraseFresh supply) :
    v = w ∨ (∃ i j items, v = list ⟨i, items⟩ ∧ w = list ⟨j, items⟩) ∨
      ∃ i j kind entries, v = map ⟨i, kind, entries⟩ ∧ w = map ⟨j, kind, entries⟩ := by
  have hu := unnamed_congr h
  cases v with
  | list l =>
    obtain ⟨i, items⟩ := l
    cases w with
    | list l =>
      obtain ⟨j, items'⟩ := l
      cases hu
      exact .inr (.inl ⟨i, j, items, rfl, rfl⟩)
    | _ => cases hu
  | map m =>
    obtain ⟨i, kind, entries⟩ := m
    cases w with
    | map m =>
      obtain ⟨j, kind', entries'⟩ := m
      cases hu
      exact .inr (.inr ⟨i, j, kind, entries, rfl, rfl⟩)
    | _ => cases hu
  | _ =>
    cases w with
    | list l => cases hu
    | map m => cases hu
    | _ => exact .inl hu

theorem records_congr {v w : Value} (h : v.eraseFresh supply = w.eraseFresh supply) :
    v.records = w.records := by
  rcases cases_of_eraseFresh h with rfl | ⟨i, j, items, rfl, rfl⟩ | ⟨i, j, kind, entries, rfl, rfl⟩
  all_goals rfl

end Value

namespace Expr

variable {v w : Value} {supply : Nat}

/-- An expression never sees the identity of the list or map at hand. -/
theorem eval_congr (e : Expr) (ctx : Context) (h : v.eraseFresh supply = w.eraseFresh supply) :
    e.eval { ctx with this := v } = e.eval { ctx with this := w } := by
  rw [← eval_of_looksLike v.looksLike_unnamed, Value.unnamed_congr h,
    eval_of_looksLike w.looksLike_unnamed]

theorem typeIn_congr (e : Expr) (ctx : Context) (h : v.eraseFresh supply = w.eraseFresh supply) :
    e.typeIn { ctx with this := v } = e.typeIn { ctx with this := w } := by
  rw [← typeIn_of_looksLike v.looksLike_unnamed, Value.unnamed_congr h,
    typeIn_of_looksLike w.looksLike_unnamed]

end Expr

namespace Field

variable {supply i j : Nat} {v w : Value}

theorem nameOrdinals_congr (f : Field) (hi : supply ≤ i) (hj : supply ≤ j)
    (h : v.eraseFresh supply = w.eraseFresh supply) :
    (f.nameOrdinals ⟨i⟩ v).eraseFresh supply = (f.nameOrdinals ⟨j⟩ w).eraseFresh supply := by
  unfold nameOrdinals
  split
  · rcases Value.cases_of_eraseFresh h with
      rfl | ⟨k, l, items, rfl, rfl⟩ | ⟨k, l, kind, entries, rfl, rfl⟩
    · split
      · exact Value.eraseFresh_of_fresh_list hi hj _
      · exact Value.eraseFresh_of_fresh_map hi hj _ _
      · rfl
    · exact Value.eraseFresh_of_fresh_list hi hj _
    · exact Value.eraseFresh_of_fresh_map hi hj _ _
  · exact h

end Field

theorem MessageOf.getAs_congr {supply i j : Nat} (m : Message) (f : Field) (hi : supply ≤ i)
    (hj : supply ≤ j) :
    (m.getAs f ⟨i⟩).map (Value.eraseFresh supply) =
      (m.getAs f ⟨j⟩).map (Value.eraseFresh supply) := by
  unfold getAs
  split
  · rfl
  · split
    · exact congrArg some (Value.eraseFresh_of_fresh_list hi hj _)
    · exact congrArg some (Value.eraseFresh_of_fresh_map hi hj _ _)
    · rfl

namespace Pending

/-- The step of a pending item and its value, up to the identities drawn since `supply`. -/
def outline (supply : Nat) (p : Pending) : Nat × Value := (p.step, p.value.eraseFresh supply)

variable {supply i j : Nat}

theorem outline_readFields (next : Nat) (reads : List (Message × Field)) (hi : supply ≤ i)
    (hj : supply ≤ j) :
    ((readFields next reads).run i).1.map (outline supply) =
      ((readFields next reads).run j).1.map (outline supply) := by
  induction reads generalizing i j with
  | nil => rfl
  | cons read rest ih =>
    obtain ⟨m, f⟩ := read
    have hread := m.getAs_congr f hi hj
    -- both runs read something here or neither does
    cases hv : m.getAs f ⟨i⟩ with
    | none =>
      rw [hv] at hread
      rw [readFields_cons_of_none hv,
        readFields_cons_of_none (Option.map_eq_none_iff.1 hread.symm)]
      exact ih (Nat.le_add_right_of_le hi) (Nat.le_add_right_of_le hj)
    | some v =>
      rw [hv] at hread
      obtain ⟨w, hw, he⟩ := Option.map_eq_some_iff.1 hread.symm
      have hi' := Nat.le_add_right_of_le (k := (m.isVacant f).toNat) hi
      have hj' := Nat.le_add_right_of_le (k := (m.isVacant f).toNat) hj
      rw [readFields_cons_of_some hv, readFields_cons_of_some hw]
      simp only [List.map_cons, outline, f.nameOrdinals_congr hi' hj' he.symm]
      rw [ih (Nat.le_add_right_of_le hi') (Nat.le_add_right_of_le hj')]

variable {p q : Pending}

theorem outline_filterList (expr : Expr) (ctx ctx' : Context) {l l' : ListValue}
    (hs : p.step = q.step) (hl : l.items = l'.items)
    (hc : ctx.outcomes expr l.items = ctx'.outcomes expr l.items)
    (hi : supply ≤ i) (hj : supply ≤ j) :
    (p.filterList expr ctx l ⟨i⟩).pushes.map (outline supply) =
      (q.filterList expr ctx' l' ⟨j⟩).pushes.map (outline supply) := by
  unfold filterList
  rw [← hl, ← hc]
  dsimp only
  split
  · rfl
  · simp only [List.map_cons, List.map_nil, outline, hs,
      Value.eraseFresh_of_fresh_list hi hj]

theorem outline_keyList (expr : Expr) {l l' : ListValue} (hs : p.step = q.step)
    (hv : p.value.eraseFresh supply = q.value.eraseFresh supply) (hl : l.items = l'.items)
    (hi : supply ≤ i) (hj : supply ≤ j) :
    (p.keyList expr l ⟨i⟩).pushes.map (outline supply) =
      (q.keyList expr l' ⟨j⟩).pushes.map (outline supply) := by
  have ht := expr.typeIn_congr { this := p.value, presence := expr.isPresenceTest } hv
  have he := expr.eval_congr { this := p.value, presence := expr.isPresenceTest } hv
  unfold keyList
  dsimp only at ht he ⊢
  rw [ht, he, ← hl]
  split
  · exact outline_filterList expr _ _ hs hl rfl hi hj
  · split
    · split
      · simp only [Expansion.push, List.map_cons, List.map_nil, outline, hs]
      · rfl
    · rfl
  · rfl
  · rfl

theorem outline_keyMap (expr : Expr) {m m' : MapValue} (hs : p.step = q.step)
    (hv : p.value.eraseFresh supply = q.value.eraseFresh supply) (hk : m.keyKind = m'.keyKind)
    (he : m.entries = m'.entries) :
    (p.keyMap expr m).pushes.map (outline supply) =
      (q.keyMap expr m').pushes.map (outline supply) := by
  have hg (k : MapKey) : m.get? k = m'.get? k := by rw [MapOf.get?, MapOf.get?, he]
  have hev := expr.eval_congr { this := p.value } hv
  unfold keyMap
  dsimp only at hev ⊢
  rw [hev, hk]
  split
  · rename_i k _
    rw [hg k]
    split
    · simp only [Expansion.push, List.map_cons, List.map_nil, outline, hs]
    · rfl
  · rfl

/-- Equal values that are no list or map expand alike, whatever field they were read from. -/
theorem outline_applyKey (expr : Expr) (hs : p.step = q.step)
    (hv : p.value.eraseFresh supply = q.value.eraseFresh supply)
    (hi : supply ≤ i) (hj : supply ≤ j) :
    (p.applyKey expr ⟨i⟩).pushes.map (outline supply) =
      (q.applyKey expr ⟨j⟩).pushes.map (outline supply) := by
  obtain ⟨sp, v, f⟩ := p
  obtain ⟨sq, w, g⟩ := q
  dsimp only at hs hv
  subst hs
  rcases Value.cases_of_eraseFresh hv with
    rfl | ⟨k, l, items, rfl, rfl⟩ | ⟨k, l, kind, entries, rfl, rfl⟩
  · -- one and the same value, which is here of any form
    unfold applyKey
    dsimp only
    split
    · exact outline_keyList expr rfl hv rfl hi hj
    · exact outline_keyMap expr rfl hv rfl rfl
    · unfold keyBytes
      dsimp only
      split
      · split <;> rfl
      · rfl
    · unfold keySingle
      dsimp only
      split <;> rfl
  · exact outline_keyList expr rfl hv rfl hi hj
  · exact outline_keyMap expr rfl hv rfl rfl

theorem outline_descend (hs : p.step = q.step)
    (hv : p.value.eraseFresh supply = q.value.eraseFresh supply) :
    p.descend.map (outline supply) = q.descend.map (outline supply) := by
  obtain ⟨sp, v, f⟩ := p
  obtain ⟨sq, w, g⟩ := q
  dsimp only at hs hv
  subst hs
  rcases Value.cases_of_eraseFresh hv with
    rfl | ⟨k, l, items, rfl, rfl⟩ | ⟨k, l, kind, entries, rfl, rfl⟩
  · cases v <;> simp [descend, outline]
  · simp [descend, outline]
  · simp [descend, outline]

/-- What a step makes of an item depends, up to the identities drawn since `supply`, on nothing
but the step and the value of the item, up to these identities. -/
theorem outline_expand (step : RecordPath.Step)
    (h : p.outline supply = q.outline supply) (hi : supply ≤ i) (hj : supply ≤ j) :
    ((p.expand step).run i).1.pushes.map (outline supply) =
      ((q.expand step).run j).1.pushes.map (outline supply) := by
  obtain ⟨hs, hv⟩ := Prod.mk.inj h
  cases step with
  | root | self =>
    change [_] = [_]
    simp only [outline, hs, hv]
  | field name =>
    change ((selectFields (p.step + 1) name p.value).run i).1.map (outline supply) =
      ((selectFields (q.step + 1) name q.value).run j).1.map (outline supply)
    unfold selectFields
    rw [hs, Value.records_congr hv]
    exact outline_readFields _ _ hi hj
  | key expr => exact outline_applyKey expr hs hv hi hj
  | descend => exact outline_descend hs hv

end Pending

end RecordPath
