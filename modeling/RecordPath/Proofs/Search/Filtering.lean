import RecordPath.Proofs.Eval.Numbers
import RecordPath.Proofs.Eval.TypeAgreement
import RecordPath.Search.Expansion

namespace RecordPath

/-- The context in which a key is typed over a list. The elements are judged in the same one, each
with its place. -/
def Expr.contextOver (e : Expr) (v : Value) : Context := { this := v, presence := e.isPresenceTest }

namespace Context

variable {ctx : Context} {e : Expr} {items : List Value} {v : Value} {i : Nat}

def accepts (ctx : Context) (e : Expr) (x : Value × Nat) : Bool :=
  e.eval (ctx.atElement x.1 x.2) matches .ok (.bool true)

def chosen (ctx : Context) (e : Expr) (items : List Value) : List Value :=
  (items.zipIdx.filter (ctx.accepts e)).map (·.1)

theorem accepts_iff {x : Value × Nat} :
    ctx.accepts e x = true ↔ e.eval (ctx.atElement x.1 x.2) = .ok (.bool true) := by
  unfold accepts
  constructor
  · intro h
    split at h
    · assumption
    · cases h
  · intro h
    rw [h]

theorem holds_eval (ctx : Context) (e : Expr) (x : Value × Nat) :
    holds (e.eval (ctx.atElement x.1 x.2)) = ctx.accepts e x := by
  unfold holds accepts
  rcases e.eval (ctx.atElement x.1 x.2) with err | (b | _ | _ | _)
  case ok.bool => cases b <;> rfl
  all_goals rfl

theorem kept_eq_chosen (ctx : Context) (e : Expr) (items : List Value) :
    (((ctx.outcomes e items).filter fun o => holds o.2).map fun o => o.1.1) =
      ctx.chosen e items := by
  unfold outcomes chosen
  rw [List.filter_map, List.map_map, ← funext (ctx.holds_eval e)]
  rfl

theorem chosen_ne_nil (hv : items[i]? = some v)
    (he : e.eval (ctx.atElement v i) = .ok (.bool true)) : ctx.chosen e items ≠ [] := by
  have hmem : (v, i) ∈ items.zipIdx.filter (ctx.accepts e) :=
    List.mem_filter.2 ⟨List.mem_zipIdx_iff_getElem?.2 hv, accepts_iff.2 he⟩
  exact List.ne_nil_of_mem (List.mem_map_of_mem hmem)

theorem chosen_eq_nil
    (h : ∀ v i, items[i]? = some v → e.eval (ctx.atElement v i) ≠ .ok (.bool true)) :
    ctx.chosen e items = [] := by
  refine List.map_eq_nil_iff.2 (List.filter_eq_nil_iff.2 fun x hx hacc => ?_)
  exact h x.1 x.2 (List.mem_zipIdx_iff_getElem?.1 hx) (accepts_iff.1 hacc)

theorem exists_record? {l : ListValue} (hl : ctx.this = .list l) {m : Message}
    (hm : .message m ∈ l.items) : ∃ n, ctx.record? = some n ∧ .message n ∈ l.items := by
  unfold Context.record?
  rw [hl]
  dsimp only
  cases hn : l.items.findSome? Value.toMessage? with
  | none => cases List.findSome?_eq_none_iff.1 hn _ hm
  | some n =>
    refine ⟨n, rfl, ?_⟩
    obtain ⟨u, hu, ht⟩ := List.exists_of_findSome?_eq_some hn
    cases u with
    | message =>
      cases ht
      exact hu
    | _ => cases ht

end Context

/-- A field that reads as a truth value is declared as one. Ordinals play no part in this. -/
theorem MessageOf.scalarType_of_truth {m : Message} {f : Field} {s : Scalar}
    (ha : SlotsAccepted m.type m.slots) (hf : f ∈ m.type.fields) (hc : f.cardinality = .single)
    (h : m.scalar f = .ok s) (hs : s.type = .bool) : f.scalarType = .ok .bool := by
  rw [← hs]
  refine scalarType_of_scalar ha hf hc (fun e hk n hv => ?_) h
  rw [scalar_enum hv hk] at h
  cases hn : e.nameOf? n with
  | some name => rfl
  | none =>
    rw [hn] at h
    cases h
    cases hs

namespace Expr

variable {ctx ctx' : Context} {e : Expr} {s : Scalar}

/-- What yields a truth value for one record is a truth value to any context that goes by a record
of the same type. -/
theorem typeIn_of_truth (hp : ctx'.presence = ctx.presence)
    (hrecord : ∀ m, ctx'.this = .message m → ∃ n, ctx.record? = some n ∧ n.type = m.type)
    (ha : ∀ m, ctx'.this = .message m → SlotsAccepted m.type m.slots)
    (h : e.eval ctx' = .ok s) (hs : s.type = .bool) : e.typeIn ctx = .ok .bool := by
  induction e generalizing s with
  | literal v =>
    cases h
    rw [typeIn, hs]
  | property name =>
    obtain ⟨m, hm, hcase⟩ := Context.property_cases h
    obtain ⟨n, hn, ht⟩ := hrecord m hm
    rw [typeIn, Context.propertyType, hn]
    rcases hcase with ⟨hstar, -⟩ | ⟨f, hstar, hf, ⟨hpresence, -⟩ | ⟨hpresence, hscalar, hread⟩⟩
    · simp only [hstar, if_true]
    · simp only [if_neg hstar, ht, hf, ← hp, hpresence, if_true]
    · simp only [if_neg hstar, ht, hf, ← hp, hpresence, Bool.false_eq_true, if_false]
      have hc : f.cardinality = .single := by
        simp only [Field.isScalar, Bool.and_eq_true, decide_eq_true_eq] at hscalar
        exact hscalar.1
      exact m.scalarType_of_truth (ha m hm) (MessageType.mem_of_field? hf).1 hc hread hs
  | call f arguments =>
    cases hs.symm.trans (Context.type_of_builtin h)
  | unary op e ih =>
    obtain ⟨v, hv, hs'⟩ := of_bind_eq_ok h
    rcases Scalar.type_of_applyUnary hs' with ⟨rfl, hvt, -⟩ | ⟨-, -, hint⟩
    · rw [typeIn, ih hv hvt]
      rfl
    · cases hs.symm.trans hint
  | binary op l r ihl ihr =>
    cases op with
    | connect op => rfl
    | compare op => rfl
    | compute op =>
      obtain ⟨a, -, h⟩ := of_bind_eq_ok h
      obtain ⟨b, -, h⟩ := of_bind_eq_ok h
      exact absurd hs (Scalar.type_of_compute h).2.1

end Expr

namespace Pending

variable {p : Pending} {l : ListValue} {e : Expr} {fresh : Ident}

/-- Elements of a list that go on to the next step, as a list with the identity `fresh`. -/
def passOn (p : Pending) (fresh : Ident) (items : List Value) : List Pending :=
  if items.isEmpty then [] else [⟨p.step + 1, .list ⟨fresh, items⟩, p.field⟩]

theorem passOn_of_ne_nil {items : List Value} (h : items ≠ []) :
    p.passOn fresh items = [⟨p.step + 1, .list ⟨fresh, items⟩, p.field⟩] := by
  rw [passOn, if_neg (by simpa using h)]

theorem pushes_filterList (ctx : Context) :
    (p.filterList e ctx l fresh).pushes = p.passOn fresh (ctx.chosen e l.items) := by
  dsimp only [filterList, passOn]
  rw [ctx.kept_eq_chosen]

theorem applyKey_list (hp : p.value = .list l) : p.applyKey e fresh = p.keyList e l fresh := by
  unfold applyKey
  rw [hp]

/-- A key that is a truth value filters a list. -/
theorem pushes_applyKey_of_bool (hp : p.value = .list l)
    (ht : e.typeIn (e.contextOver p.value) = .ok .bool) :
    (p.applyKey e fresh).pushes = p.passOn fresh ((e.contextOver p.value).chosen e l.items) := by
  rw [applyKey_list hp, ← pushes_filterList]
  unfold Expr.contextOver at ht ⊢
  simp only [keyList, ht]

theorem of_indexIn {length i : Nat} {s : Scalar} (h : indexIn length s = .ok i) :
    ∃ n : Int64, s = .int n ∧ n.toInt = i := by
  unfold indexIn at h
  split at h
  · split at h
    · rename_i n hn
      cases h
      exact ⟨n, rfl, by omega⟩
    · cases h
  · cases h

/-- A key of another type picks one element of a list at most, and only if it is an integer. -/
theorem pushes_applyKey_of_ne_bool (hp : p.value = .list l)
    (ht : e.typeIn (e.contextOver p.value) ≠ .ok .bool) :
    (p.applyKey e fresh).pushes = [] ∨
      e.typeIn (e.contextOver p.value) = .ok .int ∧ ∃ (n : Int64) (i : Nat) (v : Value),
        e.eval (e.contextOver p.value) = .ok (.int n) ∧ n.toInt = i ∧ l.items[i]? = some v ∧
          (p.applyKey e fresh).pushes = [⟨p.step + 1, v, p.field⟩] := by
  rw [applyKey_list hp]
  unfold Expr.contextOver at ht ⊢
  unfold keyList
  dsimp only
  split
  · rename_i h
    exact absurd h ht
  · rename_i h
    split
    · rename_i i hi
      obtain ⟨s, hs, hi⟩ := of_bind_eq_ok hi
      obtain ⟨n, rfl, hn⟩ := of_indexIn hi
      split
      · rename_i v hv
        exact .inr ⟨h, n, i, v, hs, hn, hv, rfl⟩
      · exact .inl rfl
    · exact .inl rfl
  · exact .inl rfl
  · exact .inl rfl

/-- A key step on a list whose messages are all of one type passes on the elements that the key is
true of, as one list in their order. If it is true of none, the step passes on nothing, or the key
is an integer over the list and the step passes on the element at its index. -/
theorem pushes_applyKey_list {w : Workshop} (hw : w.Reached) (hp : p.value = .list l)
    (hbuilt : ∀ m, .message m ∈ l.items → ∃ v ∈ w.values, v.Contains (.message m))
    (htype : ∀ m n, .message m ∈ l.items → .message n ∈ l.items → m.type = n.type)
    (e : Expr) (fresh : Ident) :
    let ctx := e.contextOver p.value
    let pushes := (p.applyKey e fresh).pushes
    (∀ v i, l.items[i]? = some v → e.eval (ctx.atElement v i) = .ok (.bool true) →
      pushes = [⟨p.step + 1, .list ⟨fresh, ctx.chosen e l.items⟩, p.field⟩]) ∧
    ((∀ v i, l.items[i]? = some v → e.eval (ctx.atElement v i) ≠ .ok (.bool true)) →
      pushes = [] ∨ e.typeIn ctx = .ok .int ∧ ∃ (n : Int64) (i : Nat) (v : Value),
        e.eval ctx = .ok (.int n) ∧ n.toInt = i ∧ l.items[i]? = some v ∧
          pushes = [⟨p.step + 1, v, p.field⟩]) := by
  intro ctx pushes
  constructor
  · intro v i hv he
    have ht : e.typeIn ctx = .ok .bool := by
      have hthis : ctx.this = .list l := hp
      have hmem (m : Message) (hm : v = .message m) : .message m ∈ l.items :=
        hm ▸ List.mem_of_getElem? hv
      have hp : (ctx.atElement v i).presence = ctx.presence := rfl
      refine e.typeIn_of_truth hp (fun m hm => ?_) (fun m hm => ?_) he rfl
      · obtain ⟨n, hn, hmem'⟩ := Context.exists_record? hthis (hmem m hm)
        exact ⟨n, hn, htype n m hmem' (hmem m hm)⟩
      · obtain ⟨known, hk⟩ := hw.holds
        obtain ⟨u, hu, hc⟩ := hbuilt m (hmem m hm)
        exact hk.coherent.accepted m (hk.coherent.known_of_contains (hk.values u hu) hc)
    exact (pushes_applyKey_of_bool hp ht).trans (passOn_of_ne_nil (Context.chosen_ne_nil hv he))
  · intro hnone
    by_cases ht : e.typeIn ctx = .ok .bool
    · refine .inl ((pushes_applyKey_of_bool hp ht).trans ?_)
      rw [Context.chosen_eq_nil hnone]
      rfl
    · exact pushes_applyKey_of_ne_bool hp ht

end Pending

namespace Errands

def errandType : MessageType where
  name := "Errand"
  fields := [⟨"done", 0, .bool, .single⟩, ⟨"size", 1, .int, .single⟩]
  index_eq := by decide
  nodup := by decide

def finished : Message := ⟨⟨0⟩, errandType, [some (.bool true), none]⟩

def unfinished : Message := ⟨⟨1⟩, errandType, [none, none]⟩

def agenda : ListValue := ⟨⟨2⟩, [.message unfinished, .string "lunch", .message finished]⟩

def workshop : Workshop where
  values := [.list agenda, .string "lunch", .message unfinished, .message finished, .bool true]
  builders := [⟨errandType, [some (.bool true), none], none⟩, ⟨errandType, [none, none], none⟩]
  supply := 3

theorem workshop_reached : workshop.Reached := by
  have h0 := Workshop.Reached.opened 0
  have h1 := h0.step (.scalar (.bool true) rfl)
  have h2 := h1.step (.start errandType)
  have h3 := h2.step (.set "done" (.head _) (.head _) rfl)
  have h4 := h3.step (.build (.head _) rfl)
  have h5 := h4.step (.empty errandType rfl)
  have h6 := h5.step (.scalar (.string "lunch") rfl)
  exact h6.step (.list agenda.items (List.forall_mem_cons.2 ⟨.tail _ (.head _),
    List.forall_mem_cons.2 ⟨.head _, List.forall_mem_singleton.2 (.tail _ (.tail _ (.head _)))⟩⟩)
    rfl)

theorem type_of_mem_agenda {m : Message} (h : .message m ∈ agenda.items) : m.type = errandType := by
  simp only [agenda, List.mem_cons, Value.message.injEq, reduceCtorEq, List.not_mem_nil, or_false,
    false_or] at h
  rcases h with rfl | rfl <;> rfl

end Errands

/-- Of a note nothing can be read, and an errand that is not done is dropped as well. -/
theorem Pending.pushes_applyKey_list_agenda :
    let p : Pending := ⟨0, .list Errands.agenda, none⟩
    let e : Expr := .binary (.compare .equal) (.property "done") (.literal (.bool true))
    Errands.workshop.Reached ∧
      (∀ m, .message m ∈ Errands.agenda.items →
        ∃ v ∈ Errands.workshop.values, v.Contains (.message m)) ∧
      (∀ m n, .message m ∈ Errands.agenda.items → .message n ∈ Errands.agenda.items →
        m.type = n.type) ∧
      (p.applyKey e ⟨3⟩).pushes = [⟨1, .list ⟨⟨3⟩, [.message Errands.finished]⟩, none⟩] := by
  intro p e
  have hbuilt (m : Message) (hm : .message m ∈ Errands.agenda.items) :
      ∃ v ∈ Errands.workshop.values, v.Contains (.message m) :=
    ⟨_, .head _, Value.Contains.self.part hm⟩
  have htype (m n : Message) (hm : .message m ∈ Errands.agenda.items)
      (hn : .message n ∈ Errands.agenda.items) : m.type = n.type :=
    (Errands.type_of_mem_agenda hm).trans (Errands.type_of_mem_agenda hn).symm
  have hp : p.value = .list Errands.agenda := rfl
  have h := Pending.pushes_applyKey_list Errands.workshop_reached hp hbuilt htype e ⟨3⟩
  exact ⟨Errands.workshop_reached, hbuilt, htype, h.1 (.message Errands.finished) 2 rfl rfl⟩

end RecordPath
