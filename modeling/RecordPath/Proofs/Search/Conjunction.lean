import RecordPath.Proofs.Search.Filtering
import RecordPath.Search.Cost

namespace RecordPath

namespace Expr

/-- Whether evaluation may ask for the place of the element at hand. The arguments of calls are
never evaluated. -/
def asksPosition : Expr → Bool
  | literal _ | property _ => false
  | call f _ => f = .position
  | unary _ e => e.asksPosition
  | binary _ l r => l.asksPosition || r.asksPosition
termination_by structural e => e

def conjunction (a b : Expr) : Expr := binary (.connect .and) a b

variable {ctx ctx' : Context} {a b : Expr}

theorem eval_of_not_asksPosition {e : Expr} (h : e.asksPosition = false) (ctx : Context)
    (i j : Option Nat) : e.eval { ctx with index := i } = e.eval { ctx with index := j } := by
  induction e generalizing ctx with
  | literal | property => rfl
  | call f arguments =>
    cases f with
    | length => rfl
    | position => cases h
  | unary op e ih => simp only [eval, ih h]
  | binary op l r ihl ihr =>
    obtain ⟨hl, hr⟩ := Bool.or_eq_false_iff.1 h
    cases op with
    | connect op => simp only [eval, ihl hl, ihr hr]
    | compute op => simp only [eval, ihl hl, ihr hr]
    | compare op =>
      simp only [eval]
      split
      · simp only [ihl hl { ctx with useDefault := true }, ihr hr { ctx with useDefault := true }]
      · simp only [ihl hl, ihr hr]

/-- Only the type of the record that a context goes by counts for the type of an expression. -/
theorem typeIn_of_record? (e : Expr) (hp : ctx.presence = ctx'.presence)
    (hr : ctx.record?.map (·.type) = ctx'.record?.map (·.type)) : e.typeIn ctx = e.typeIn ctx' := by
  induction e with
  | literal | call => rfl
  | property name =>
    simp only [typeIn, Context.propertyType, hp]
    cases hm : ctx.record? with
    | none =>
      rw [hm] at hr
      rw [Option.map_eq_none_iff.1 hr.symm]
    | some m =>
      rw [hm] at hr
      obtain ⟨n, hn, ht⟩ := Option.map_eq_some_iff.1 hr.symm
      simp only [hn, ht]
  | unary op e ih => simp only [typeIn, ih]
  | binary op l r ihl ihr => cases op <;> simp only [typeIn, ihl, ihr]

theorem truth_eq_ok_true {op : Connective} {s : Scalar} :
    Scalar.truth op s = .ok true ↔ s = .bool true := by
  cases s <;> simp [Scalar.truth]

theorem eval_conjunction : (conjunction a b).eval ctx = .ok (.bool true) ↔
    a.eval ctx = .ok (.bool true) ∧ b.eval ctx = .ok (.bool true) := by
  constructor
  · intro h
    obtain ⟨s, hs, h⟩ := of_bind_eq_ok h
    obtain ⟨p, hp, h⟩ := of_bind_eq_ok h
    split at h
    · rename_i habsorbs
      cases h
      cases habsorbs
    · rename_i habsorbs
      obtain ⟨t, ht, h⟩ := of_bind_eq_ok h
      obtain ⟨q, hq, h⟩ := of_bind_eq_ok h
      cases h
      cases p with
      | false => exact absurd rfl habsorbs
      | true =>
        rw [hs, ht, truth_eq_ok_true.1 hp, truth_eq_ok_true.1 hq]
        exact ⟨rfl, rfl⟩
  · rintro ⟨ha, hb⟩
    rw [conjunction, eval, ha, hb]
    rfl

theorem isPresenceTest_conjunction (h : a.isPresenceTest = b.isPresenceTest) :
    (conjunction a b).isPresenceTest = a.isPresenceTest := by
  change (true && a.isPresenceTest && b.isPresenceTest) = a.isPresenceTest
  rw [← h, Bool.true_and, Bool.and_self]

end Expr

namespace Context

variable {ctx : Context} {a b : Expr}

theorem accepts_of_not_asksPosition (hb : b.asksPosition = false) :
    ctx.accepts b = (fun v => ctx.accepts b (v, 0)) ∘ Prod.fst := by
  funext x
  have heval : b.eval (ctx.atElement x.1 x.2) = b.eval (ctx.atElement x.1 0) :=
    Expr.eval_of_not_asksPosition hb { ctx with this := x.1 } (some x.2) (some 0)
  unfold accepts
  rw [heval]
  rfl

/-- A test that does not ask for places chooses each element by itself. -/
theorem chosen_eq_filter (hb : b.asksPosition = false) (items : List Value) :
    ctx.chosen b items = items.filter fun v => ctx.accepts b (v, 0) := by
  rw [chosen, accepts_of_not_asksPosition hb, ← List.filter_map, List.zipIdx_map_fst]
  rfl

theorem accepts_conjunction (x : Value × Nat) :
    ctx.accepts (.conjunction a b) x = (ctx.accepts b x && ctx.accepts a x) := by
  rw [Bool.eq_iff_iff, Bool.and_eq_true, accepts_iff, accepts_iff, accepts_iff,
    Expr.eval_conjunction, and_comm]

/-- Choosing by one test and then by another is choosing by their conjunction. The places of the
elements have changed in between, so the second test must not ask for them. -/
theorem chosen_chosen (hb : b.asksPosition = false) (items : List Value) :
    ctx.chosen b (ctx.chosen a items) = ctx.chosen (.conjunction a b) items := by
  calc ctx.chosen b (ctx.chosen a items)
      = ((items.zipIdx.filter (ctx.accepts a)).map (·.1)).filter fun v => ctx.accepts b (v, 0) :=
        chosen_eq_filter hb _
    _ = ((items.zipIdx.filter (ctx.accepts a)).filter (ctx.accepts b)).map (·.1) := by
        rw [List.filter_map, ← accepts_of_not_asksPosition hb]
    _ = ctx.chosen (.conjunction a b) items := by
        rw [List.filter_filter, chosen, ← funext accepts_conjunction]

theorem subset_of_chosen (items : List Value) : ctx.chosen a items ⊆ items := by
  rw [← ctx.kept_eq_chosen]
  exact (ctx.sublist_kept a items).subset

theorem type_of_record? {l : ListValue} {t : MessageType} (hl : ctx.this = .list l)
    (hne : l.items ≠ []) (hrecords : ∀ v ∈ l.items, ∃ m, v = .message m ∧ m.type = t) :
    ctx.record?.map (·.type) = some t := by
  obtain ⟨v, hv⟩ := List.exists_mem_of_ne_nil l.items hne
  obtain ⟨m, rfl, -⟩ := hrecords v hv
  obtain ⟨n, hn, hmem⟩ := exists_record? hl hv
  obtain ⟨n', hn', htype⟩ := hrecords _ hmem
  cases hn'
  rw [hn, Option.map_some, htype]

end Context

/-- A filter does not change how a test is typed over messages of one type, if it leaves any. -/
theorem Expr.typeIn_of_subset (e : Expr) {v v' : Value} {l l' : ListValue} {t : MessageType}
    (hv : v = .list l) (hv' : v' = .list l') (hsub : l'.items ⊆ l.items) (hne : l'.items ≠ [])
    (hrecords : ∀ v ∈ l.items, ∃ m, v = .message m ∧ m.type = t) :
    e.typeIn (e.contextOver v') = e.typeIn (e.contextOver v) := by
  have hbefore : (e.contextOver v).record?.map (·.type) = some t := by
    refine Context.type_of_record? hv (fun hnil => hne ?_) hrecords
    rw [hnil] at hsub
    exact List.subset_nil.1 hsub
  have hafter : (e.contextOver v').record?.map (·.type) = some t :=
    Context.type_of_record? hv' hne fun v hmem => hrecords v (hsub hmem)
  exact e.typeIn_of_record? rfl (hafter.trans hbefore.symm)

namespace Pending

variable {p : Pending} {l : ListValue} {t : MessageType} {a b : Expr}

theorem pushes_applyKey_conjunction (hp : p.value = .list l)
    (hpresence : a.isPresenceTest = b.isPresenceTest) (hposition : b.asksPosition = false)
    (k : Ident) : (p.applyKey (.conjunction a b) k).pushes = p.passOn k
      ((b.contextOver p.value).chosen b ((a.contextOver p.value).chosen a l.items)) := by
  have hb : b.contextOver p.value = a.contextOver p.value := by
    rw [Expr.contextOver, ← hpresence]
    rfl
  have hboth : (Expr.conjunction a b).contextOver p.value = a.contextOver p.value := by
    rw [Expr.contextOver, Expr.isPresenceTest_conjunction hpresence]
    rfl
  rw [hb, Context.chosen_chosen hposition, ← hboth]
  exact pushes_applyKey_of_bool hp rfl

/-- Two filters that follow one another keep what one filter keeps whose test is the conjunction of
theirs. The tests read properties in the same way, and the second does not ask for places. -/
theorem applyKey_applyKey (hp : p.value = .list l)
    (hrecords : ∀ v ∈ l.items, ∃ m, v = .message m ∧ m.type = t)
    (ha : a.typeIn (a.contextOver p.value) = .ok .bool)
    (hb : b.typeIn (b.contextOver p.value) = .ok .bool)
    (hpresence : a.isPresenceTest = b.isPresenceTest) (hposition : b.asksPosition = false)
    (i j k : Ident) :
    let successive := (p.applyKey a i).pushes.flatMap fun q => (q.applyKey b j).pushes
    let single := (p.applyKey (.conjunction a b) k).pushes
    successive = [] ∧ single = [] ∨
      ∃ kept, successive = [⟨p.step + 2, .list ⟨j, kept⟩, p.field⟩] ∧
        single = [⟨p.step + 1, .list ⟨k, kept⟩, p.field⟩] := by
  intro successive single
  let first := (a.contextOver p.value).chosen a l.items
  let kept := (b.contextOver p.value).chosen b first
  have hsingle : single = p.passOn k kept := pushes_applyKey_conjunction hp hpresence hposition k
  have hfirst : (p.applyKey a i).pushes = p.passOn i first := pushes_applyKey_of_bool hp ha
  by_cases hne : first = []
  · left
    simp only [successive, hfirst, hsingle, kept, hne]
    exact ⟨rfl, rfl⟩
  · let q : Pending := ⟨p.step + 1, .list ⟨i, first⟩, p.field⟩
    have htype : b.typeIn (b.contextOver q.value) = .ok .bool :=
      (b.typeIn_of_subset hp rfl (Context.subset_of_chosen l.items) hne hrecords).trans hb
    -- The whole lists differ, but in their place the tests see the elements.
    have hsecond : (q.applyKey b j).pushes = q.passOn j kept := pushes_applyKey_of_bool rfl htype
    have hsuccessive : successive = q.passOn j kept := by
      simp only [successive, hfirst, passOn_of_ne_nil hne, List.flatMap_singleton]
      exact hsecond
    by_cases hkept : kept = []
    · left
      rw [hsuccessive, hsingle, hkept]
      exact ⟨rfl, rfl⟩
    · right
      exact ⟨kept, hsuccessive.trans (passOn_of_ne_nil hkept),
        hsingle.trans (passOn_of_ne_nil hkept)⟩

/-- Both tests read fields that one of two errands has no value in. -/
theorem applyKey_applyKey_errands :
    let items : List Value := [.message Errands.unfinished, .message Errands.finished]
    let p : Pending := ⟨0, .list ⟨⟨3⟩, items⟩, none⟩
    let a : Expr := .binary (.compare .equal) (.property "done") (.literal (.bool true))
    let b : Expr := .binary (.compare .equal) (.property "size") (.literal (.int 0))
    (∀ v ∈ items, ∃ m, v = .message m ∧ m.type = Errands.errandType) ∧
      a.typeIn (a.contextOver p.value) = .ok .bool ∧
      b.typeIn (b.contextOver p.value) = .ok .bool ∧
      a.isPresenceTest = b.isPresenceTest ∧ b.asksPosition = false ∧
      (p.applyKey (.conjunction a b) ⟨6⟩).pushes =
        [⟨1, .list ⟨⟨6⟩, [.message Errands.finished]⟩, none⟩] ∧
      ((p.applyKey a ⟨4⟩).pushes.flatMap fun q => (q.applyKey b ⟨5⟩).pushes) =
        [⟨2, .list ⟨⟨5⟩, [.message Errands.finished]⟩, none⟩] := by
  intro items p a b
  have hrecords : ∀ v ∈ items, ∃ m, v = .message m ∧ m.type = Errands.errandType :=
    List.forall_mem_cons.2 ⟨⟨_, rfl, rfl⟩, List.forall_mem_singleton.2 ⟨_, rfl, rfl⟩⟩
  have hsingle : (p.applyKey (.conjunction a b) ⟨6⟩).pushes =
      [⟨1, .list ⟨⟨6⟩, [.message Errands.finished]⟩, none⟩] := rfl
  refine ⟨hrecords, rfl, rfl, rfl, rfl, hsingle, ?_⟩
  have hp : p.value = .list ⟨⟨3⟩, items⟩ := rfl
  obtain ⟨-, hnone⟩ | ⟨kept, hsuccessive, hkept⟩ :=
    applyKey_applyKey hp hrecords (a := a) (b := b) rfl rfl rfl rfl ⟨4⟩ ⟨5⟩ ⟨6⟩
  · cases hsingle.symm.trans hnone
  · cases hsingle.symm.trans hkept
    exact hsuccessive

end Pending

end RecordPath
