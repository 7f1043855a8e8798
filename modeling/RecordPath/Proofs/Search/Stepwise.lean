import RecordPath.Proofs.Search.Course
import RecordPath.Proofs.Search.Descent

namespace RecordPath

namespace Step

def yields (step : Step) (v : Value) : Alloc (List Value) := do
  return (← (⟨0, v, none⟩ : Pending).expand step).pushes.map (·.value)

/-- The values that a step yields for a list of values, in their order; of those with one identity
the first. -/
def overList (vs : List Value) (step : Step) : Alloc (List Value) := do
  return firsts Value.ident? [] (← vs.flatMapM step.yields)

end Step

/-- What the steps of a path make of a root, one step after the other; lists are taken apart in the
end. -/
def Path.stepwise (path : Path) (root : Message) : Alloc (List Value) := do
  return (← path.steps.foldlM Step.overList [.message root]).flatMap Search.contribution

/-- What a field step reads does not depend on the number of the step. -/
theorem map_value_readFields (i j : Nat) (reads : List (Message × Field)) (n : Nat) :
    ((readFields i reads).run n).1.map (·.value) = ((readFields j reads).run n).1.map (·.value) ∧
      ((readFields i reads).run n).2 = ((readFields j reads).run n).2 := by
  induction reads generalizing n with
  | nil => exact ⟨rfl, rfl⟩
  | cons read rest ih =>
    obtain ⟨m, f⟩ := read
    cases hv : m.getAs f ⟨n⟩ with
    | none =>
      rw [readFields_cons_of_none hv, readFields_cons_of_none hv]
      exact ih _
    | some v =>
      rw [readFields_cons_of_some hv, readFields_cons_of_some hv]
      obtain ⟨hvalues, hsupply⟩ := ih (n + (m.isVacant f).toNat + (f.renames v).toNat)
      exact ⟨congrArg (f.nameOrdinals _ v :: ·) hvalues, hsupply⟩

namespace Pending

variable {p : Pending}

theorem map_value_applyKey (p : Pending) (expr : Expr) (fresh : Ident) :
    (p.applyKey expr fresh).pushes.map (·.value) =
      ((⟨0, p.value, none⟩ : Pending).applyKey expr fresh).pushes.map (·.value) := by
  unfold applyKey
  dsimp only
  split
  · unfold keyList filterList
    dsimp only
    split
    · split <;> rfl
    · split
      · split <;> rfl
      · rfl
    · rfl
    · rfl
  · unfold keyMap
    dsimp only
    split
    · split <;> rfl
    · rfl
  · unfold keyBytes
    dsimp only
    split
    · split <;> rfl
    · rfl
  · unfold keySingle
    dsimp only
    split <;> rfl

/-- What a step makes of an item are the values that it yields for the value of the item. -/
theorem run_expand_eq_yields (p : Pending) (step : RecordPath.Step) (n : Nat) :
    ((p.expand step).run n).1.pushes.map (·.value) = ((step.yields p.value).run n).1 ∧
      ((p.expand step).run n).2 = ((step.yields p.value).run n).2 := by
  cases step with
  | root | self => exact ⟨rfl, rfl⟩
  | field name => exact map_value_readFields ..
  | key expr => exact ⟨p.map_value_applyKey expr ⟨n⟩, rfl⟩
  | descend =>
    refine ⟨?_, rfl⟩
    change p.descend.map (·.value) = (descend ⟨0, p.value, none⟩).map (·.value)
    unfold descend
    dsimp only
    split <;> simp

theorem step_of_expand {step : RecordPath.Step} (h : step ≠ .descend) (n : Nat) :
    ∀ q ∈ ((p.expand step).run n).1.pushes, q.step = p.step + 1 := by
  cases step with
  | root | self => exact List.forall_mem_singleton.2 rfl
  | field name => exact readFields_step _ _ _
  | key expr => exact (p.advances_applyKey expr ⟨n⟩).1
  | descend => exact absurd rfl h

/-- Among items of one step the keys tell apart what the identities tell apart. -/
theorem map_value_firsts {k : Nat} {visits : List Visit} {idents : List Ident}
    {items : List Pending} (hs : ∀ q ∈ items, q.step = k)
    (hk : ∀ i, (⟨k, i⟩ : Visit) ∈ visits ↔ i ∈ idents) :
    (firsts Keyed.key? visits items).map (·.value) =
      firsts Value.ident? idents (items.map (·.value)) := by
  induction items generalizing visits idents with
  | nil => rfl
  | cons q rest ih =>
    obtain ⟨hq, hrest⟩ := List.forall_mem_cons.1 hs
    rw [List.map_cons]
    cases hi : q.value.ident? with
    | none =>
      have hkey : (Keyed.key? q : Option Visit) = none := Option.map_eq_none_iff.2 hi
      rw [firsts_cons_of_none hkey, firsts_cons_of_none hi, List.map_cons, ih hrest hk]
    | some i =>
      have hkey : Keyed.key? q = some (⟨k, i⟩ : Visit) :=
        Option.map_eq_some_iff.2 ⟨i, hi, by rw [hq]⟩
      by_cases hmem : i ∈ idents
      · rw [firsts_cons_of_mem hkey ((hk i).2 hmem), firsts_cons_of_mem hi hmem, ih hrest hk]
      · have hnew : (⟨k, i⟩ : Visit) ∉ visits := fun h => hmem ((hk i).1 h)
        rw [firsts_cons_of_not_mem hkey hnew, firsts_cons_of_not_mem hi hmem, List.map_cons]
        congr 1
        exact ih hrest fun j => by simp [hk]

end Pending

namespace Search

variable {steps : List Step} {k : Nat} {gone ahead behind : List Pending} {s : Search}

/-- A search between two steps: the values that step `k` is still to be applied to, and after them
what it has yielded for the others. -/
structure Between (k : Nat) (gone ahead behind : List Pending) (s : Search) : Prop where
  remembers : s.queue.Remembers gone
  toList_eq : s.queue.toList = ahead ++ behind
  gone : ∀ p ∈ gone, p.step ≤ k
  ahead : ∀ p ∈ ahead, p.step = k
  behind : ∀ p ∈ behind, p.step = k + 1

/-- Only what a step has yielded so far stands in the way of what it yields next. -/
theorem Between.mem_keys (h : Between k gone ahead behind s) (i : Ident) :
    (⟨k + 1, i⟩ : Visit) ∈ s.queue.keys gone ↔
      i ∈ (behind.map (·.value)).filterMap Value.ident? := by
  rw [OnceQueue.keys, h.toList_eq, List.filterMap_map, List.mem_filterMap, List.mem_filterMap]
  constructor
  · rintro ⟨p, hp, hkey⟩
    obtain ⟨j, hj, he⟩ := Option.map_eq_some_iff.1 hkey
    obtain ⟨hstep, rfl⟩ := Visit.mk.inj he
    rcases List.mem_append.1 hp with hp | hp
    · have := h.gone p hp
      omega
    · rcases List.mem_append.1 hp with hp | hp
      · have := h.ahead p hp
        omega
      · exact ⟨p, hp, hj⟩
  · rintro ⟨p, hp, hi⟩
    exact ⟨p, by simp [hp], Option.map_eq_some_iff.2 ⟨i, hi, by rw [h.behind p hp]⟩⟩

/-- One turn of a search applies the step to the first value. -/
theorem Between.turn {step : Step} {p : Pending} (h : Between k gone (p :: ahead) behind s)
    (hs : steps[k]? = some step) (hd : step ≠ .descend) :
    ∃ s' more, (run steps s).1.values = (run steps s').1.values ∧
      Between k (gone ++ [p]) ahead (behind ++ more) s' ∧
      more.map (·.value) = firsts Value.ident? ((behind.map (·.value)).filterMap Value.ident?)
        ((step.yields p.value).run s.supply).1 ∧
      s'.supply = ((step.yields p.value).run s.supply).2 := by
  cases ha : s.advance? steps with
  | none =>
    have hlist := h.toList_eq
    rw [advance?_eq_none.1 ha] at hlist
    cases hlist
  | some r =>
    obtain ⟨f, s'⟩ := r
    obtain ⟨q, queue, hpop, hcase⟩ := advance?_cases ha
    have hlist := h.toList_eq
    rw [OnceQueue.toList_of_pop? hpop, List.cons_append] at hlist
    obtain ⟨rfl, hqueue⟩ := List.cons.inj hlist
    obtain ⟨hq, hahead⟩ := List.forall_mem_cons.1 h.ahead
    rw [hq, hs] at hcase
    obtain ⟨⟨⟩, -⟩ | ⟨step', hs', hf, rfl⟩ := hcase
    obtain rfl := Option.some.inj hs'
    have hpopped : Between k (gone ++ [q]) ahead behind ⟨queue, s.supply⟩ := by
      refine ⟨h.remembers.pop hpop, hqueue, fun p hp => ?_, hahead, h.behind⟩
      rcases List.mem_append.1 hp with hp | hp
      · exact h.gone p hp
      · exact List.mem_singleton.1 hp ▸ Nat.le_of_eq hq
    have hsteps : ∀ t ∈ ((q.expand step).run s.supply).1.pushes, t.step = k + 1 :=
      fun t ht => hq ▸ q.step_of_expand hd s.supply t ht
    obtain ⟨hvalues, hsupply⟩ := q.run_expand_eq_yields step s.supply
    refine ⟨⟨queue.pushAll ((q.expand step).run s.supply).1.pushes,
        ((q.expand step).run s.supply).2⟩,
      firsts Keyed.key? (queue.keys (gone ++ [q])) ((q.expand step).run s.supply).1.pushes,
      by rw [run_of_advance? ha, hf, List.nil_append], ?_, ?_, hsupply⟩
    · refine ⟨(hpopped.remembers.pushAll _).1, ?_, hpopped.gone, hahead, fun p hp => ?_⟩
      · rw [hpopped.remembers.toList_pushAll, hqueue, List.append_assoc]
      · rcases List.mem_append.1 hp with hp | hp
        · exact h.behind p hp
        · exact hsteps p ((firsts_sublist _ _).subset hp)
    · rw [Pending.map_value_firsts hsteps hpopped.mem_keys, hvalues]

/-- A whole step: every value that was ahead has had its turn. -/
theorem Between.run {step : Step} (h : Between k gone ahead behind s)
    (hs : steps[k]? = some step) (hd : step ≠ .descend) :
    ∃ s' gone' more, (run steps s).1.values = (Search.run steps s').1.values ∧
      Between k gone' [] (behind ++ more) s' ∧
      more.map (·.value) = firsts Value.ident? ((behind.map (·.value)).filterMap Value.ident?)
        (((ahead.map (·.value)).flatMapM step.yields).run s.supply).1 ∧
      s'.supply = (((ahead.map (·.value)).flatMapM step.yields).run s.supply).2 := by
  induction ahead generalizing gone behind s with
  | nil => exact ⟨s, gone, [], rfl, by simpa using h, rfl, rfl⟩
  | cons p rest ih =>
    obtain ⟨s₁, first, hrun₁, h₁, hfirst, hsupply₁⟩ := h.turn hs hd
    obtain ⟨s₂, gone', later, hrun₂, h₂, hlater, hsupply₂⟩ := ih h₁
    refine ⟨s₂, gone', first ++ later, hrun₁.trans hrun₂, by simpa using h₂, ?_, ?_⟩
    · rw [List.map_append, hfirst, hlater, List.map_cons, List.flatMapM_cons]
      change _ = firsts _ _ (((step.yields p.value).run s.supply).1 ++
        (((rest.map (·.value)).flatMapM step.yields).run ((step.yields p.value).run s.supply).2).1)
      rw [firsts_append, ← hsupply₁, List.map_append, List.filterMap_append, hfirst]
    · rw [hsupply₂, hsupply₁, List.map_cons, List.flatMapM_cons]
      rfl

/-- Values that have passed all steps only have to be taken from the queue. -/
theorem values_of_passed {items : List Pending} (hl : s.queue.toList = items)
    (h : ∀ p ∈ items, steps[p.step]? = none) :
    (run steps s).1.values = (items.map (·.value)).flatMap contribution := by
  induction items generalizing s with
  | nil => exact run_of_advance?_eq_none (advance?_eq_none.2 hl)
  | cons p rest ih =>
    obtain ⟨hp, hrest⟩ := List.forall_mem_cons.1 h
    cases ha : s.advance? steps with
    | none =>
      rw [advance?_eq_none.1 ha] at hl
      cases hl
    | some r =>
      obtain ⟨f, s'⟩ := r
      obtain ⟨q, queue, hpop, hcase⟩ := advance?_cases ha
      rw [OnceQueue.toList_of_pop? hpop] at hl
      obtain ⟨rfl, hqueue⟩ := List.cons.inj hl
      rw [hp] at hcase
      obtain ⟨-, hf, rfl⟩ | ⟨step, ⟨⟩, -⟩ := hcase
      rw [run_of_advance? ha, hf, ih hqueue hrest]
      rfl

/-- The rest of a search takes the steps that are left, each over the whole list. -/
theorem Between.values {rest : List Step} (h : Between k gone ahead [] s)
    (hrest : steps.drop k = rest) (hd : Step.descend ∉ rest) :
    (Search.run steps s).1.values =
      ((rest.foldlM Step.overList (ahead.map (·.value))).run s.supply).1.flatMap
        contribution := by
  induction rest generalizing k gone ahead s with
  | nil =>
    have hk : steps.length ≤ k := List.drop_eq_nil_iff.1 hrest
    refine values_of_passed (by simpa using h.toList_eq) fun p hp => ?_
    rw [h.ahead p hp]
    exact List.getElem?_eq_none hk
  | cons step rest ih =>
    have hs : steps[k]? = some step := by
      rw [← List.head?_drop, hrest, List.head?_cons]
    obtain ⟨hne, hd⟩ := not_or.1 (mt List.mem_cons.2 hd)
    obtain ⟨s', gone', more, hrun, h', hmore, hsupply⟩ := h.run hs (Ne.symm hne)
    rw [List.nil_append] at h'
    have hnext : Between (k + 1) gone' more [] s' :=
      ⟨h'.remembers, by simpa using h'.toList_eq, fun p hp => Nat.le_succ_of_le (h'.gone p hp),
        h'.behind, by simp⟩
    rw [hrun, ih hnext (by rw [← List.tail_drop, hrest, List.tail_cons]) hd, List.foldlM_cons]
    change _ = ((rest.foldlM Step.overList (firsts Value.ident? []
      (((ahead.map (·.value)).flatMapM step.yields).run s.supply).1)).run
        (((ahead.map (·.value)).flatMapM step.yields).run s.supply).2).1.flatMap contribution
    rw [hmore, hsupply]
    rfl

end Search

/-- A path without `//` finds what its steps make of the root one after the other, each applied to
the whole list of values that the step before it has left. -/
theorem Query.find_eq_stepwise (path : Path) (root : Message) (supply : Nat)
    (h : Step.descend ∉ path.steps) :
    ((Query.find ⟨[path]⟩ root).run supply).1.values = ((path.stepwise root).run supply).1 := by
  rw [values_find_singleton]
  have hstart : Search.Between 0 [] [⟨0, .message root, none⟩] [] (.start root supply) :=
    ⟨(OnceQueue.remembers_empty.push _).1, Search.toList_start root supply, by simp, by simp,
      by simp⟩
  exact hstart.values rfl h

/-- Two steps to the child that two children share. -/
theorem Query.find_eq_stepwise_grove :
    Step.descend ∉ [Step.root, .field "children", .field "children"] ∧
      ((Query.find ⟨[⟨[.root, .field "children", .field "children"]⟩]⟩ Grove.tree).run
        7).1.values =
        ((Path.stepwise ⟨[.root, .field "children", .field "children"]⟩ Grove.tree).run 7).1 :=
  ⟨by decide, Query.find_eq_stepwise _ Grove.tree 7 (by decide)⟩

end RecordPath
