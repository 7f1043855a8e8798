import RecordPath.Search.Weight

namespace RecordPath

theorem sum_map_le_of_sublist {α : Type} {xs ys : List α} (w : α → Nat) (h : xs.Sublist ys) :
    total (xs.map w) ≤ total (ys.map w) :=
  sum_le_of_sublist (h.map w)

theorem sum_flatMap {α β : Type} (xs : List α) (f : α → List β) (w : β → Nat) :
    total ((xs.flatMap f).map w) = total (xs.map fun a => total ((f a).map w)) := by
  induction xs with
  | nil => rfl
  | cons x rest ih => simp [ih]

theorem sum_map_le {α : Type} (xs : List α) (f g : α → Nat) (h : ∀ x ∈ xs, f x ≤ g x) :
    total (xs.map f) ≤ total (xs.map g) := by
  induction xs with
  | nil => exact Nat.le_refl 0
  | cons x rest ih =>
    have h1 := h x (by simp)
    have h2 := ih fun y hy => h y (by simp [hy])
    simp only [List.map_cons, total_cons]
    omega

namespace Value

theorem sum_weight_records_le (v : Value) :
    total (v.records.map fun m => (message m).weight) ≤ v.weight := by
  unfold records
  split
  · simp
  · rename_i l
    have key (vs : List Value) :
        total ((vs.filterMap toMessage?).map fun m => (message m).weight) ≤ itemsWeight vs := by
      induction vs with
      | nil => simp
      | cons v rest ih =>
        rw [List.filterMap_cons, itemsWeight]
        cases v <;> simp only [toMessage?, List.map_cons, total_cons] <;> omega
    have hw : (list l).weight = 1 + itemsWeight l.items := rfl
    rw [hw]
    exact Nat.le_trans (key l.items) (by omega)
  · simp

end Value

theorem sum_weight_selectFields (next : Nat) (name : String) (v : Value) (supply : Nat) :
    total (((selectFields next name v).run supply).1.map fun p => p.value.weight) ≤ v.weight := by
  refine Nat.le_trans (sum_weight_readFields ..) ?_
  rw [sum_flatMap]
  refine Nat.le_trans (sum_map_le _ _ (fun m => (Value.message m).weight) fun m _ => ?_)
    v.sum_weight_records_le
  have := m.sum_readWeight_fieldsNamed name
  rw [List.map_map]
  exact Nat.le_of_lt this

/-- What a test keeps of a list is in the order of the list. -/
theorem Context.sublist_kept (ctx : Context) (expr : Expr) (items : List Value) :
    (((ctx.outcomes expr items).filter fun o => holds o.2).map fun o => o.1.1).Sublist items := by
  have h : ((ctx.outcomes expr items).map fun o => o.1.1) = items := by
    simp [outcomes, List.map_map, Function.comp_def, List.zipIdx_map_fst]
  have hs := (List.filter_sublist (p := fun o => holds o.2) (l := ctx.outcomes expr items)).map
    fun o => o.1.1
  rwa [h] at hs

namespace Expansion

/-- Items that are one step on, and that weigh no more in all than the item they come from. -/
def Advances (e : Expansion) (p : Pending) : Prop :=
  (∀ q ∈ e.pushes, q.step = p.step + 1) ∧
    total (e.pushes.map fun q => q.value.weight) ≤ p.value.weight

theorem Advances.none (p : Pending) (notes : List Note) : Advances ⟨[], notes⟩ p := by
  simp [Advances]

theorem Advances.one {p : Pending} {v : Value} {f : Option Field} {notes : List Note}
    (h : v.weight ≤ p.value.weight) : Advances ⟨[⟨p.step + 1, v, f⟩], notes⟩ p := by
  simpa [Advances] using h

theorem Advances.sum_cost_lt {e : Expansion} {p : Pending} {count : Nat} (h : e.Advances p)
    (hp : p.step < count) : total (e.pushes.map (Pending.cost count)) < p.cost count := by
  obtain ⟨r, hr⟩ : ∃ r, count - p.step = r + 1 := ⟨count - p.step - 1, by omega⟩
  have h1 := sum_cost_map count (p.step + 1) e.pushes h.1
  have h2 := cost_mono (count - (p.step + 1)) h.2
  have h3 : count - (p.step + 1) = r := by omega
  rw [h3] at h1 h2
  have h4 := cost_lt (r := r) p.value.weight_pos
  rw [Pending.cost, hr]
  omega

end Expansion

namespace Value

theorem weight_le_list {l : ListValue} {v : Value} (h : v ∈ l.items) :
    v.weight ≤ (list l).weight := by
  have hw : (list l).weight = 1 + itemsWeight l.items := rfl
  have := sum_le_of_sublist ((List.singleton_sublist.2 h).map weight)
  rw [hw, itemsWeight_eq]
  simp only [List.map_cons, List.map_nil, total_cons, total_nil] at this
  omega

theorem weight_le_map {m : MapValue} {e : MapKey × Value} (h : e ∈ m.entries) :
    e.2.weight ≤ (map m).weight := by
  have hw : (map m).weight = 1 + entriesWeight m.entries := rfl
  have := sum_le_of_sublist ((List.singleton_sublist.2 h).map fun e => e.2.weight)
  rw [hw, entriesWeight_eq]
  simp only [List.map_cons, List.map_nil, total_cons, total_nil] at this
  omega

end Value

namespace Pending

open Expansion

theorem advances_filterList {p : Pending} {l : ListValue} (hl : p.value = .list l) (expr : Expr)
    (ctx : Context) (fresh : Ident) : (p.filterList expr ctx l fresh).Advances p := by
  unfold filterList
  dsimp only
  split
  · exact .none ..
  · refine .one ?_
    rw [hl]
    have h := sum_map_le_of_sublist Value.weight (ctx.sublist_kept expr l.items)
    simp only [Value.weight, Value.itemsWeight_eq]
    omega

theorem advances_keyList {p : Pending} {l : ListValue} (hl : p.value = .list l) (expr : Expr)
    (fresh : Ident) : (p.keyList expr l fresh).Advances p := by
  unfold keyList
  dsimp only
  split
  · exact advances_filterList hl ..
  · split
    · split
      · rename_i v hv
        exact .one (hl ▸ Value.weight_le_list (List.mem_of_getElem? hv))
      · exact .none ..
    · exact .none ..
  · exact .none ..
  · exact .none ..

theorem advances_keyMap {p : Pending} {m : MapValue} (hm : p.value = .map m) (expr : Expr) :
    (p.keyMap expr m).Advances p := by
  unfold keyMap
  dsimp only
  split
  · split
    · rename_i v hv
      obtain ⟨e, he, rfl⟩ := Option.map_eq_some_iff.1 hv
      exact .one (hm ▸ Value.weight_le_map (List.mem_of_find?_eq_some he))
    · exact .none ..
  · exact .none ..

theorem advances_keyBytes (p : Pending) (expr : Expr) (bs : List UInt8) :
    (p.keyBytes expr bs).Advances p := by
  unfold keyBytes
  dsimp only
  split
  · split
    · exact .one p.value.weight_pos
    · exact .none ..
  · exact .none ..

theorem advances_keySingle (p : Pending) (expr : Expr) : (p.keySingle expr).Advances p := by
  unfold keySingle
  dsimp only
  split
  · exact .one (Nat.le_refl _)
  all_goals exact .none ..

theorem advances_applyKey (p : Pending) (expr : Expr) (fresh : Ident) :
    (p.applyKey expr fresh).Advances p := by
  unfold applyKey
  split
  · rename_i l hl; exact advances_keyList hl ..
  · rename_i m hm; exact advances_keyMap hm ..
  · exact advances_keyBytes ..
  · exact advances_keySingle ..

/-- What a descent makes of a value: perhaps the value itself one step on, and parts of it at the
same step that weigh less than it in all. -/
theorem sum_cost_descend {p : Pending} {count : Nat} (hp : p.step < count) :
    total (p.descend.map (Pending.cost count)) < p.cost count := by
  obtain ⟨r, hr⟩ : ∃ r, count - p.step = r + 1 := ⟨count - p.step - 1, by omega⟩
  obtain ⟨n, hn⟩ : ∃ n, p.value.weight = n + 1 :=
    ⟨p.value.weight - 1, by have := p.value.weight_pos; omega⟩
  have hd := cost_descend r n
  have below (qs : List Pending) (hstep : ∀ q ∈ qs, q.step = p.step)
      (hw : total (qs.map fun q => q.value.weight) < p.value.weight) :
      total (qs.map (Pending.cost count)) ≤ RecordPath.cost (r + 1) n := by
    have h1 := sum_cost_map count p.step qs hstep
    rw [hr] at h1
    exact Nat.le_trans h1 (cost_mono _ (by omega))
  have hcost : p.cost count = RecordPath.cost (r + 1) (n + 1) := by rw [Pending.cost, hr, hn]
  rw [hcost]
  unfold descend
  split
  · rename_i m hm
    have hb := below ((m.present.filter (·.2.isContainer)).map fun x => ⟨p.step, x.2, some x.1⟩)
      (by simp only [List.mem_map]; rintro q ⟨x, _, rfl⟩; rfl) (by
        have h1 := sum_map_le_of_sublist (fun x : Field × Value => x.2.weight)
          (List.filter_sublist (p := fun x => x.2.isContainer) (l := m.present))
        have h2 := MessageOf.weight_of_present (m := m)
        rw [List.map_map, hm]
        exact Nat.lt_of_le_of_lt h1 h2)
    have hs :
        (⟨p.step + 1, p.value, p.field⟩ : Pending).cost count = RecordPath.cost r (n + 1) := by
      have h3 : count - (p.step + 1) = r := by omega
      simp only [Pending.cost]
      rw [h3, hn]
    rw [List.map_cons, total_cons, hs]
    omega
  · rename_i l hl
    have hb := below ((l.items.filter Value.isContainer).map fun v => ⟨p.step, v, p.field⟩)
      (by simp only [List.mem_map]; rintro q ⟨x, _, rfl⟩; rfl) (by
        have h1 := sum_map_le_of_sublist Value.weight
          (List.filter_sublist (p := Value.isContainer) (l := l.items))
        have hw : (Value.list l).weight = 1 + Value.itemsWeight l.items := rfl
        rw [List.map_map, hl, hw, Value.itemsWeight_eq]
        exact Nat.lt_of_le_of_lt h1 (by omega))
    have := Nat.le_add_right (RecordPath.cost (r + 1) n) (RecordPath.cost r (n + 1))
    omega
  · rename_i m hm
    have hb := below (((m.entries.map (·.2)).filter Value.isContainer).map fun v =>
        ⟨p.step, v, p.field⟩)
      (by simp only [List.mem_map]; rintro q ⟨x, _, rfl⟩; rfl) (by
        have h1 := sum_map_le_of_sublist Value.weight
          (List.filter_sublist (p := Value.isContainer) (l := m.entries.map (·.2)))
        have hw : (Value.map m).weight = 1 + Value.entriesWeight m.entries := rfl
        rw [List.map_map] at h1
        rw [List.map_map, hm, hw, Value.entriesWeight_eq]
        exact Nat.lt_of_le_of_lt h1 (by simp only [Function.comp_def]; omega))
    omega
  · simp only [List.map_nil, total_nil]
    omega

theorem sum_cost_expand {p : Pending} {count : Nat} (hp : p.step < count) (step : Step)
    (supply : Nat) :
    total ((((p.expand step).run supply).1.pushes).map (Pending.cost count)) < p.cost count := by
  cases step with
  | root | self => exact (Advances.one (Nat.le_refl _)).sum_cost_lt hp
  | field name =>
    refine Advances.sum_cost_lt ⟨?_, ?_⟩ hp
    · exact fun q hq => readFields_step _ _ _ q hq
    · exact sum_weight_selectFields ..
  | key expr => exact (p.advances_applyKey expr ⟨supply⟩).sum_cost_lt hp
  | descend => exact sum_cost_descend hp

end Pending

end RecordPath
