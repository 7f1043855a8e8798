import RecordPath.Proofs.Eval.Observation
import RecordPath.Proofs.Record.Defaults
import RecordPath.Proofs.Record.Pairing

namespace RecordPath

namespace Value

variable {ρ : Ident → Ident → Prop} {v w : Value}

theorem toMessage?_filled (h : Filled ρ v w) :
    Option.Rel (fun m n => Filled ρ (.message m) (.message n)) v.toMessage? w.toMessage? := by
  cases h with
  | scalar hv => cases v <;> first | exact .none | cases hv
  | message hi ht hs => exact .some (.message hi ht hs)
  | list | map => exact .none

/-- The first record of a list stays the first. -/
theorem findSome?_filled {xs ys : List Value} (hs : List.Forall₂ (Filled ρ) xs ys) :
    Option.Rel (fun m n => Filled ρ (.message m) (.message n)) (xs.findSome? toMessage?)
      (ys.findSome? toMessage?) := by
  induction hs with
  | nil => exact .none
  | @cons v w _ _ h _ ih =>
    have hm := toMessage?_filled h
    rw [List.findSome?_cons, List.findSome?_cons]
    generalize v.toMessage? = x, w.toMessage? = y at hm
    cases hm with
    | none => exact ih
    | some h => exact .some h

theorem record?_filled (h : Filled ρ v w) (ctx : Context) :
    Option.Rel (fun m n => Filled ρ (.message m) (.message n))
      ({ ctx with this := v } : Context).record? { ctx with this := w }.record? := by
  cases h with
  | scalar hv => cases v <;> first | exact .none | cases hv
  | message hi ht hs => exact .some (.message hi ht hs)
  | list _ hs => exact findSome?_filled hs
  | map => exact .none

theorem property_filled (h : Filled ρ v w) (ctx : Context) (name : String) :
    ({ ctx with this := v } : Context).property name = { ctx with this := w }.property name := by
  cases h with
  | scalar | list | map => rfl
  | @message m n hi ht hs =>
    have h : Filled ρ (.message m) (.message n) := .message hi ht hs
    unfold Context.property
    dsimp only
    rw [MessageOf.hasAny_filled h, ht]
    cases hf : m.type.field? name with
    | none => rfl
    | some f =>
      have hmem := (MessageType.mem_of_field? hf).1
      dsimp only
      rw [MessageOf.has_filled h hmem, MessageOf.scalar_filled h hmem]

theorem propertyType_filled (h : Filled ρ v w) (ctx : Context) (name : String) :
    ({ ctx with this := v } : Context).propertyType name =
      { ctx with this := w }.propertyType name := by
  have hrecord := record?_filled h ctx
  unfold Context.propertyType
  generalize ({ ctx with this := v } : Context).record? = x,
    ({ ctx with this := w } : Context).record? = y at hrecord
  cases hrecord with
  | none => rfl
  | some h => simp only [MessageOf.type_filled h]

/-- No expression tells whether defaults are stored. -/
theorem Filled.looksLike (h : Filled ρ v w) : v.LooksLike w where
  property := property_filled h
  propertyType := propertyType_filled h
  builtin ctx f := by
    cases h with
    | scalar | message => rfl
    | list _ hs => cases f <;> simp only [Context.builtin, hs.length_eq]
    | map _ _ hs => cases f <;> simp only [Context.builtin, hs.length_eq]

end Value

namespace Field

variable {ρ : Ident → Ident → Prop} {v w : Value}

theorem renameOrdinal_filled (f : Field) (h : Value.Filled ρ v w) :
    Value.Filled ρ (f.renameOrdinal v) (f.renameOrdinal w) := by
  cases h with
  | scalar hv =>
    rcases f.renameOrdinal_cases v with he | hn
    · rw [he]
      exact .scalar hv
    · exact .scalar hn
  | message hi ht hs => exact .message hi ht hs
  | list hi hs => exact .list hi hs
  | map hi hk hs => exact .map hi hk hs

theorem renames_filled (f : Field) (h : Value.Filled ρ v w) : f.renames w = f.renames v := by
  cases h <;> rfl

theorem nameOrdinals_filled (f : Field) (h : Value.Filled ρ v w) {i j : Ident}
    (hij : f.renames v = true → ρ i j) :
    Value.Filled ρ (f.nameOrdinals i v) (f.nameOrdinals j w) := by
  unfold nameOrdinals
  split
  · rename_i henum
    cases h with
    | scalar hv =>
      cases v with
      | message | list | map => cases hv
      | _ => exact f.renameOrdinal_filled (.scalar rfl)
    | message hi ht hs => exact .message hi ht hs
    | list hi hs =>
      have hij := hij (by rw [renames, henum]; rfl)
      exact .list hij (List.rel_map (fun _ _ h => f.renameOrdinal_filled h) hs)
    | map hi hk hs =>
      have hij := hij (by rw [renames, henum]; rfl)
      refine .map hij hk (List.rel_map ?_ hs)
      rintro _ _ ⟨key, h⟩
      exact .mk key (f.renameOrdinal_filled h)
  · exact h

end Field

namespace Pending

variable {ρ σ : Ident → Ident → Prop} {p q : Pending}

structure Filled (ρ : Ident → Ident → Prop) (p q : Pending) : Prop where
  step : q.step = p.step
  value : p.value.Filled ρ q.value

theorem Filled.mono (hρ : Subrelation ρ σ) (h : p.Filled ρ q) : p.Filled σ q :=
  ⟨h.step, h.value.mono hρ⟩

end Pending

theorem getElem?_of_forall₂ {α β : Type} {R : α → β → Prop} {xs : List α} {ys : List β}
    (h : List.Forall₂ R xs ys) (i : Nat) : Option.Rel R xs[i]? ys[i]? := by
  induction h generalizing i with
  | nil => exact .none
  | cons h _ ih =>
    cases i with
    | zero => exact .some h
    | succ i => exact ih i

theorem MapOf.get?_filled {ρ : Ident → Ident → Prop} {m n : MapValue}
    (hs : List.Forall₂ (EntryFilled (Value.Filled ρ)) m.entries n.entries) (key : MapKey) :
    Option.Rel (Value.Filled ρ) (m.get? key) (n.get? key) := by
  unfold MapOf.get?
  generalize m.entries = xs, n.entries = ys at hs
  induction hs with
  | nil => exact .none
  | cons h _ ih =>
    obtain ⟨key', h⟩ := h
    rw [List.find?_cons, List.find?_cons]
    dsimp only
    cases decide (key' = key) with
    | true => exact .some h
    | false => exact ih

open Alloc (InStep)

variable {ρ σ : Ident → Ident → Prop}

theorem MessageOf.get_filled {m n : Message} {f : Field}
    (h : Value.Filled ρ (.message m) (.message n)) (hf : f ∈ m.type.fields) :
    InStep (fun σ => Option.Rel (Value.Filled σ)) ρ (m.get f) (n.get f) := by
  rw [get, get, isVacant_filled h hf]
  exact (InStep.freshIf _).bind fun _ _ _ hσ hij => .pure (getAs_filled (h.mono hσ) hf hij)

inductive ReadFilled (ρ : Ident → Ident → Prop) : Message × Field → Message × Field → Prop
  | mk {m n : Message} {f : Field} (hf : f ∈ m.type.fields)
      (h : Value.Filled ρ (.message m) (.message n)) : ReadFilled ρ (m, f) (n, f)

theorem readFields_filled (next : Nat) {reads reads' : List (Message × Field)}
    (hr : List.Forall₂ (ReadFilled ρ) reads reads') (hσ : Subrelation ρ σ) :
    InStep (fun τ => List.Forall₂ (Pending.Filled τ)) σ (readFields next reads)
      (readFields next reads') := by
  induction hr generalizing σ with
  | nil => exact .pure .nil
  | cons h _ ih =>
    obtain @⟨m, n, f, hf, h⟩ := h
    rw [readFields, readFields]
    apply (MessageOf.get_filled (h.mono hσ) hf).bind
    intro τ x y hτ hread
    cases hread with
    | none => exact ih fun h => hτ (hσ h)
    | @some v w hv =>
      dsimp only
      rw [f.renames_filled hv]
      apply (InStep.freshIf _).bind
      intro υ renamed renamed' hυ hrenamed
      apply (ih fun h => hυ (hτ (hσ h))).bind
      intro φ more more' hφ hmore
      have hv' := hv.mono fun h => hφ (hυ h)
      exact .pure (.cons ⟨rfl, f.nameOrdinals_filled hv' fun h => hφ (hrenamed h)⟩ hmore)

theorem records_filled {v w : Value} (h : v.Filled ρ w) :
    List.Forall₂ (fun m n => Value.Filled ρ (.message m) (.message n)) v.records w.records := by
  cases h with
  | scalar hv => cases v <;> first | exact .nil | cases hv
  | message hi ht hs => exact .cons (.message hi ht hs) .nil
  | list _ hs => exact List.rel_filterMap (fun _ _ h => Value.toMessage?_filled h) hs
  | map => exact .nil

theorem selectFields_filled (next : Nat) (name : String) {v w : Value} (h : v.Filled ρ w) :
    InStep (fun τ => List.Forall₂ (Pending.Filled τ)) ρ (selectFields next name v)
      (selectFields next name w) := by
  refine readFields_filled next (List.rel_flatMap (records_filled h) ?_) id
  intro m n h
  dsimp only
  rw [MessageOf.type_filled h]
  refine List.rel_map (R := fun f g => g = f ∧ f ∈ m.type.fields) ?_
    (List.forall₂_same.2 fun f hf => ⟨rfl, (m.type.fieldsNamed_sublist name).subset hf⟩)
  rintro _ f ⟨rfl, hf⟩
  exact .mk hf h

namespace Pending

variable {p q : Pending}

/-- A test has the same outcome for every element. -/
theorem outcomes_filled (ctx : Context) (expr : Expr) (v w : Value) {xs ys : List Value}
    (hs : List.Forall₂ (Value.Filled ρ) xs ys) :
    List.Forall₂ (fun o o' => o.1.1.Filled ρ o'.1.1 ∧ o'.2 = o.2)
      (({ ctx with this := v } : Context).outcomes expr xs)
      ({ ctx with this := w }.outcomes expr ys) := by
  unfold Context.outcomes
  generalize 0 = i
  induction hs generalizing i with
  | nil => exact .nil
  | cons h _ ih =>
    have heval := expr.eval_of_looksLike h.looksLike { ctx with index := some i }
    exact .cons ⟨h, heval.symm⟩ (ih (i + 1))

theorem kept_filled {os os' : List ((Value × Nat) × Except EvalError Scalar)}
    (hs : List.Forall₂ (fun o o' => o.1.1.Filled ρ o'.1.1 ∧ o'.2 = o.2) os os') :
    List.Forall₂ (Value.Filled ρ) ((os.filter fun o => holds o.2).map fun o => o.1.1)
      ((os'.filter fun o => holds o.2).map fun o => o.1.1) := by
  refine List.rel_map (fun _ _ h => h.1) (List.rel_filter ?_ hs)
  intro o o' h
  dsimp only
  rw [h.2]

theorem any_filled {os os' : List ((Value × Nat) × Except EvalError Scalar)}
    (hs : List.Forall₂ (fun o o' => o.1.1.Filled ρ o'.1.1 ∧ o'.2 = o.2) os os') :
    os'.any (fun o => holds o.2) = os.any fun o => holds o.2 := by
  induction hs with
  | nil => rfl
  | cons h _ ih => rw [List.any_cons, List.any_cons, h.2, ih]

theorem filterList_filled (hp : p.Filled ρ q) (expr : Expr) (ctx : Context) (v w : Value)
    {l k : ListValue} (hs : List.Forall₂ (Value.Filled ρ) l.items k.items) {i j : Ident}
    (hij : (({ ctx with this := v } : Context).outcomes expr l.items).any (fun o => holds o.2) =
      true → ρ i j) :
    List.Forall₂ (Filled ρ) (p.filterList expr { ctx with this := v } l i).pushes
      (q.filterList expr { ctx with this := w } k j).pushes := by
  have hkept := kept_filled (outcomes_filled ctx expr v w hs)
  unfold filterList
  dsimp only
  rw [isEmpty_of_forall₂ hkept]
  split
  · exact .nil
  · rename_i hsome
    refine .cons ⟨congrArg (· + 1) hp.step, .list (hij ?_) hkept⟩ .nil
    rw [List.isEmpty_map, List.isEmpty_iff, List.filter_eq_nil_iff] at hsome
    simpa using hsome

/-- A filter makes a list of both or of neither. -/
theorem filters_filled (hp : p.Filled ρ q) (expr : Expr) : q.filters expr = p.filters expr := by
  let ctx : Context := { this := p.value, presence := expr.isPresenceTest }
  have htype := expr.typeIn_of_looksLike hp.value.looksLike ctx
  have hv := hp.value
  unfold filters
  generalize hpv : p.value = v, hqv : q.value = w at hv
  cases hv with
  | scalar | message | map => rfl
  | @list l k hi hs =>
    dsimp only [ctx] at htype ⊢
    rw [hpv, hqv] at htype
    rw [← htype]
    have hany := any_filled (outcomes_filled ctx expr (.list l) (.list k) hs)
    split
    · exact hany
    · rfl

theorem keyList_filled (hp : p.Filled ρ q) (expr : Expr) {l k : ListValue}
    (hs : List.Forall₂ (Value.Filled ρ) l.items k.items) (hl : p.value = .list l) {i j : Ident}
    (hij : p.filters expr = true → ρ i j) :
    List.Forall₂ (Filled ρ) (p.keyList expr l i).pushes (q.keyList expr k j).pushes := by
  let ctx : Context := { this := p.value, presence := expr.isPresenceTest }
  have htype := expr.typeIn_of_looksLike hp.value.looksLike ctx
  have heval := expr.eval_of_looksLike hp.value.looksLike ctx
  unfold keyList
  dsimp only [ctx] at htype heval ⊢
  rw [← htype, ← heval, ← hs.length_eq]
  split
  · rename_i hbool
    refine filterList_filled hp expr ctx p.value q.value hs fun hany => hij ?_
    rw [filters, hl]
    dsimp only
    rw [← hl, hbool]
    exact hany
  · split
    · rename_i n _
      have hitem := getElem?_of_forall₂ hs n
      generalize l.items[n]? = x, k.items[n]? = y at hitem
      cases hitem with
      | none => exact .nil
      | some h => exact .cons ⟨congrArg (· + 1) hp.step, h⟩ .nil
    · exact .nil
  · exact .nil
  · exact .nil

theorem keyMap_filled (hp : p.Filled ρ q) (expr : Expr) {m n : MapValue}
    (hk : n.keyKind = m.keyKind)
    (hs : List.Forall₂ (EntryFilled (Value.Filled ρ)) m.entries n.entries) :
    List.Forall₂ (Filled ρ) (p.keyMap expr m).pushes (q.keyMap expr n).pushes := by
  have heval := expr.eval_of_looksLike hp.value.looksLike { this := p.value }
  unfold keyMap
  dsimp only at heval ⊢
  rw [← heval, hk]
  split
  · rename_i key _
    have hentry := MapOf.get?_filled hs key
    generalize m.get? key = x, n.get? key = y at hentry
    cases hentry with
    | none => exact .nil
    | some h => exact .cons ⟨congrArg (· + 1) hp.step, h⟩ .nil
  · exact .nil

theorem keyBytes_filled (hp : p.Filled ρ q) (expr : Expr) (bs : List UInt8) :
    List.Forall₂ (Filled ρ) (p.keyBytes expr bs).pushes (q.keyBytes expr bs).pushes := by
  have htype := expr.typeIn_of_looksLike hp.value.looksLike { this := p.value }
  have heval := expr.eval_of_looksLike hp.value.looksLike { this := p.value }
  unfold keyBytes
  dsimp only at htype heval ⊢
  rw [← htype, ← heval]
  split
  · split
    · exact .cons ⟨congrArg (· + 1) hp.step, .scalar rfl⟩ .nil
    · exact .nil
  · exact .nil

theorem keySingle_filled (hp : p.Filled ρ q) (expr : Expr) :
    List.Forall₂ (Filled ρ) (p.keySingle expr).pushes (q.keySingle expr).pushes := by
  have heval := expr.eval_of_looksLike hp.value.looksLike { this := p.value, presence := true }
  unfold keySingle
  dsimp only at heval ⊢
  rw [← heval]
  split
  · exact .cons ⟨congrArg (· + 1) hp.step, hp.value⟩ .nil
  all_goals exact .nil

theorem applyKey_filled (hp : p.Filled ρ q) (expr : Expr) {i j : Ident}
    (hij : p.filters expr = true → ρ i j) :
    List.Forall₂ (Filled ρ) (p.applyKey expr i).pushes (q.applyKey expr j).pushes := by
  have hv := hp.value
  unfold applyKey
  generalize hpv : p.value = v, hqv : q.value = w at hv
  cases hv with
  | scalar hs =>
    cases v with
    | message | list | map => cases hs
    | bytes bs => exact keyBytes_filled hp expr bs
    | _ => exact keySingle_filled hp expr
  | message => exact keySingle_filled hp expr
  | list _ hs => exact keyList_filled hp expr hs hpv hij
  | map _ hk hs => exact keyMap_filled hp expr hk hs

theorem containers_filled (hp : p.Filled ρ q) {vs ws : List Value}
    (hs : List.Forall₂ (Value.Filled ρ) vs ws) :
    List.Forall₂ (Filled ρ) ((vs.filter Value.isContainer).map fun v => ⟨p.step, v, p.field⟩)
      ((ws.filter Value.isContainer).map fun w => ⟨q.step, w, q.field⟩) := by
  refine List.rel_map (fun _ _ h => ⟨hp.step, h⟩) (List.rel_filter ?_ hs)
  intro v w h
  dsimp only
  rw [h.isContainer]

theorem descend_filled (hp : p.Filled ρ q) :
    List.Forall₂ (Filled ρ) p.descend q.descend := by
  have hv := hp.value
  unfold descend
  generalize hpv : p.value = v, hqv : q.value = w at hv
  cases hv with
  | scalar hs =>
    cases v with
    | message | list | map => cases hs
    | _ => exact .nil
  | @message m n hi ht hs =>
    have h : Value.Filled ρ (.message m) (.message n) := .message hi ht hs
    refine .cons ⟨congrArg (· + 1) hp.step, h⟩ (List.rel_map (fun _ _ h => ⟨hp.step, h⟩)
      (List.rel_filter ?_ (MessageOf.present_filled h)))
    intro x y h
    dsimp only
    rw [h.isContainer]
  | list _ hs => exact containers_filled hp hs
  | map _ _ hs =>
    refine containers_filled hp (List.rel_map ?_ hs)
    rintro _ _ ⟨key, h⟩
    exact h

/-- What a step makes of a value is the same with defaults stored. -/
theorem expand_filled (hp : p.Filled ρ q) (step : RecordPath.Step) :
    InStep (fun σ e e' => List.Forall₂ (Filled σ) e.pushes e'.pushes) ρ (p.expand step)
      (q.expand step) := by
  cases step with
  | root | self => exact .pure (.cons ⟨congrArg (· + 1) hp.step, hp.value⟩ .nil)
  | field name =>
    rw [expand, expand, hp.step]
    exact (selectFields_filled _ name hp.value).bind fun _ _ _ _ h => .pure h
  | key expr =>
    rw [expand, expand, filters_filled hp expr]
    exact (InStep.freshIf _).bind fun _ _ _ hσ hij =>
      .pure (applyKey_filled (hp.mono hσ) expr hij)
  | descend => exact .pure (descend_filled hp)

end Pending

end RecordPath
