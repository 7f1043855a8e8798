import RecordPath.Proofs.Search.Origin

namespace RecordPath

/-- Keys that tell the same items apart let the same items through. -/
theorem firsts_congr_key {α κ : Type} [DecidableEq κ] {key? key?' : α → Option κ} {P : α → Prop}
    (hsame : ∀ a b, P a → P b → (key? a = key? b ↔ key?' a = key?' b))
    (hnone : ∀ a, key? a = none ↔ key?' a = none) {before items : List α}
    (hbefore : ∀ a ∈ before, P a) (hitems : ∀ a ∈ items, P a) :
    firsts key? (before.filterMap key?) items = firsts key?' (before.filterMap key?') items := by
  induction items generalizing before with
  | nil => rfl
  | cons a rest ih =>
    obtain ⟨ha, hrest⟩ := List.forall_mem_cons.1 hitems
    cases hk : key? a with
    | none => rw [firsts_cons_of_none hk, firsts_cons_of_none ((hnone a).1 hk), ih hbefore hrest]
    | some k =>
      have hne : key?' a ≠ none := fun hn => by cases hk.symm.trans ((hnone a).2 hn)
      obtain ⟨l, hl⟩ := Option.ne_none_iff_exists'.1 hne
      have hmem : k ∈ before.filterMap key? ↔ l ∈ before.filterMap key?' := by
        rw [List.mem_filterMap, List.mem_filterMap, ← hk, ← hl]
        exact exists_congr fun b => and_congr_right fun hb => hsame b a (hbefore b hb) ha
      by_cases hb : k ∈ before.filterMap key?
      · rw [firsts_cons_of_mem hk hb, firsts_cons_of_mem hl (hmem.1 hb), ih hbefore hrest]
      · rw [firsts_cons_of_not_mem hk hb, firsts_cons_of_not_mem hl (hb ∘ hmem.2),
          ← List.filterMap_cons_some hk, ← List.filterMap_cons_some hl,
          ih (List.forall_mem_cons.2 ⟨ha, hbefore⟩) hrest]

/-- The counter tells apart what it has drawn before it comes round. -/
theorem Ident.shown_inj {low : Nat} {i j : Ident} (hi : low ≤ i.number ∧ i.number < low + 2 ^ 64)
    (hj : low ≤ j.number ∧ j.number < low + 2 ^ 64) : i.shown = j.shown ↔ i = j := by
  obtain ⟨i⟩ := i
  obtain ⟨j⟩ := j
  simp only [shown, UInt64.size, Ident.mk.injEq] at hi hj ⊢
  omega

namespace Value

/-- If the value has an identity, it came of a draw from `low` on and before `n`. -/
def DrawnIn (low n : Nat) (v : Value) : Prop :=
  ∀ i, v.ident? = some i → low ≤ i.number ∧ i.number < n

variable {low m n : Nat} {u v : Value}

theorem DrawnIn.mono (h : v.DrawnIn low n) {n' : Nat} (hn : n ≤ n') : v.DrawnIn low n' :=
  fun i hi => ⟨(h i hi).1, Nat.lt_of_lt_of_le (h i hi).2 hn⟩

theorem shown?_eq_none : v.shown? = none ↔ v.ident? = none := Option.map_eq_none_iff

theorem shown?_inj (hu : u.DrawnIn low (low + 2 ^ 64)) (hv : v.DrawnIn low (low + 2 ^ 64)) :
    u.shown? = v.shown? ↔ u.ident? = v.ident? := by
  cases hi : u.ident? with
  | none => rw [shown?_eq_none.2 hi, eq_comm, shown?_eq_none, eq_comm]
  | some i =>
    cases hj : v.ident? with
    | none => simp [shown?, hi, hj]
    | some j =>
      rw [shown?, shown?, hi, hj, Option.map_some, Option.map_some, Option.some_inj,
        Option.some_inj]
      exact Ident.shown_inj (hu i hi) (hv j hj)

theorem Gathered.drawnIn {known element : Value → Prop} (h : v.Gathered known element m n)
    (hk : ∀ u, known u → u.DrawnIn low m) (hlow : low ≤ m) (hn : m ≤ n) : v.DrawnIn low n := by
  rcases h.known_or_ident? with h | ⟨i, hi, hm, hlt⟩
  · exact (hk v h).mono hn
  · intro j hj
    cases hi.symm.trans hj
    exact ⟨Nat.le_trans hlow hm, hlt⟩

end Value

namespace Pending

variable {low : Nat} {p q : Pending}

theorem shownKey?_eq_none : p.shownKey? = none ↔ Keyed.key? p = none :=
  Option.map_eq_none_iff.trans (Value.shown?_eq_none.trans Option.map_eq_none_iff.symm)

/-- While the counter does not come round, what it shows tells items apart as the draws do. -/
theorem shownKey?_inj (hp : p.value.DrawnIn low (low + 2 ^ 64))
    (hq : q.value.DrawnIn low (low + 2 ^ 64)) :
    Keyed.key? p = Keyed.key? q ↔ p.shownKey? = q.shownKey? := by
  have h := Value.shown?_inj hp hq
  change p.value.ident?.map _ = q.value.ident?.map _ ↔ p.value.shown?.map _ = q.value.shown?.map _
  unfold Value.shown? at h ⊢
  generalize p.value.ident? = x, q.value.ident? = y at h ⊢
  cases x <;> cases y <;> simp_all

end Pending

namespace Search

variable {known element : Value → Prop} {steps : List Step} {low m : Nat} {gone : List Pending}
  {s t : Search} {p : Pending} {queue : OnceQueue Pending Visit} {key? : Pending → Option Visit}

theorem advance?_of_none (hpop : s.queue.pop? = some (p, queue)) (hstep : steps[p.step]? = none) :
    s.advance? steps key? = some (⟨contribution p.value, []⟩, ⟨queue, s.supply⟩) := by
  rw [advance?, hpop]
  simp only [hstep]

theorem advance?_of_some {step : Step} (hpop : s.queue.pop? = some (p, queue))
    (hstep : steps[p.step]? = some step) :
    let made := (p.expand step).run s.supply
    s.advance? steps key? =
      some (⟨[], made.1.notes⟩, ⟨queue.pushAll made.1.pushes key?, made.2⟩) := by
  rw [advance?, hpop]
  simp only [hstep]

theorem supply_le_run (steps : List Step) (s : Search) : s.supply ≤ (s.run steps key?).2 := by
  cases ha : s.advance? steps key? with
  | none => rw [run_of_none ha]
  | some r =>
    obtain ⟨f, s'⟩ := r
    have := cost_advance? ha
    rw [run_of_some ha]
    exact Nat.le_trans (supply_le_advance? ha) (supply_le_run steps s')
termination_by s.cost steps.length

/-- Two searches that have come across the same so far, the second with a memo that goes by what
the counter shows. -/
structure Abreast (known element : Value → Prop) (m : Nat) (gone : List Pending) (s t : Search) :
    Prop where
  supply : t.supply = s.supply
  queued : t.queue.toList = s.queue.toList
  remembers : s.queue.Remembers gone
  remembers' : t.queue.Remembers gone Pending.shownKey?
  supply_le : m ≤ s.supply
  gathered : ∀ p ∈ gone ++ s.queue.toList, p.value.Gathered known element m s.supply

theorem abreast_start {root : Message} (hr : known (.message root)) (m : Nat) :
    Abreast known element m [] (start root m) (start root m Pending.shownKey?) where
  supply := rfl
  queued := by rw [toList_start, toList_start]
  remembers := (OnceQueue.remembers_empty.push _).1
  remembers' := (OnceQueue.remembers_empty.push _).1
  supply_le := Nat.le_refl m
  gathered := by
    rw [toList_start]
    exact List.forall_mem_singleton.2 (.known hr)

namespace Abreast

theorem pop (h : Abreast known element m gone s t) (hpop : s.queue.pop? = some (p, queue)) :
    ∃ queue', t.queue.pop? = some (p, queue') ∧
      Abreast known element m (gone ++ [p]) ⟨queue, s.supply⟩ ⟨queue', t.supply⟩ := by
  have hlist := h.queued.trans (OnceQueue.toList_of_pop? hpop)
  cases hpop' : t.queue.pop? with
  | none =>
    rw [OnceQueue.pop?_eq_none.1 hpop'] at hlist
    cases hlist
  | some r =>
    obtain ⟨q, queue'⟩ := r
    rw [OnceQueue.toList_of_pop? hpop', List.cons.injEq] at hlist
    obtain ⟨rfl, hrest⟩ := hlist
    refine ⟨queue', rfl, h.supply, hrest, h.remembers.pop hpop, h.remembers'.pop hpop',
      h.supply_le, fun q hq => h.gathered q ?_⟩
    rwa [append_of_pop? gone hpop]

/-- The queues admit the same, unless the counter has come round to a draw that still counts. -/
theorem pushAll (hk : ∀ v, known v → v.DrawnIn low m) (hlow : low ≤ m)
    (h : Abreast known element m gone s t) {items : List Pending} {n : Nat} (hn : s.supply ≤ n)
    (hbound : n ≤ low + 2 ^ 64) (hi : ∀ q ∈ items, q.value.Gathered known element m n) :
    Abreast known element m gone ⟨s.queue.pushAll items, n⟩
      ⟨t.queue.pushAll items Pending.shownKey?, n⟩ where
  supply := rfl
  queued := by
    have hmn := Nat.le_trans h.supply_le hn
    have hdrawn (q : Pending) (hq : q.value.Gathered known element m n) :
        q.value.DrawnIn low (low + 2 ^ 64) := (hq.drawnIn hk hlow hmn).mono hbound
    dsimp only
    rw [h.remembers.toList_pushAll, h.remembers'.toList_pushAll, OnceQueue.keys, OnceQueue.keys,
      h.queued]
    refine congrArg (s.queue.toList ++ ·) (firsts_congr_key
      (P := fun q : Pending => q.value.DrawnIn low (low + 2 ^ 64)) ?_ ?_ ?_ ?_).symm
    · exact fun p q hp hq => Pending.shownKey?_inj hp hq
    · exact fun p => Pending.shownKey?_eq_none.symm
    · exact fun q hq => hdrawn q ((h.gathered q hq).mono (Nat.le_refl m) hn)
    · exact fun q hq => hdrawn q (hi q hq)
  remembers := (h.remembers.pushAll items).1
  remembers' := (h.remembers'.pushAll items).1
  supply_le := Nat.le_trans h.supply_le hn
  gathered q hq := by
    rcases (mem_pushAll gone s.queue items).2 q hq with hq | hq
    · exact (h.gathered q hq).mono (Nat.le_refl m) hn
    · exact hi q hq

/-- The searches end with the same, if the counter does not come round before the second one ends.
The induction is on the cost of the first one. -/
theorem run (hs : Sources known element) (hk : ∀ v, known v → v.DrawnIn low m) (hlow : low ≤ m)
    {gone : List Pending} {s t : Search} (h : Abreast known element m gone s t)
    (hn : (t.run steps Pending.shownKey?).2 ≤ low + 2 ^ 64) :
    t.run steps Pending.shownKey? = s.run steps := by
  cases hpop : s.queue.pop? with
  | none =>
    have hempty := OnceQueue.pop?_eq_none.1 hpop
    rw [run_of_none (advance?_eq_none.2 hempty),
      run_of_none (advance?_eq_none.2 (h.queued.trans hempty)), h.supply]
  | some r =>
    obtain ⟨p, queue⟩ := r
    obtain ⟨queue', hpop', hnext⟩ := h.pop hpop
    have hp := h.gathered p (append_of_pop? gone hpop ▸ by simp)
    cases hstep : steps[p.step]? with
    | none =>
      have hturn : s.advance? steps = _ := advance?_of_none hpop hstep
      have := cost_advance? hturn
      rw [run_of_some (advance?_of_none hpop' hstep)] at hn ⊢
      rw [run_of_some hturn, hnext.run hs hk hlow hn]
    | some step =>
      have hturn : s.advance? steps = _ := advance?_of_some hpop hstep
      have := cost_advance? hturn
      rw [run_of_some (advance?_of_some hpop' hstep)] at hn ⊢
      rw [run_of_some hturn]
      rw [h.supply] at hn ⊢
      have hbound := Nat.le_trans (supply_le_run steps _) hn
      have hmade := hs.gathered_expand hp h.supply_le step
      have hnext' := hnext.pushAll hk hlow (p.supply_le_expand step s.supply) hbound hmade
      rw [hnext'.run hs hk hlow hn]
termination_by s.cost steps.length

end Abreast

end Search

section Finding

variable {known element : Value → Prop} {root : Message} {low m : Nat}
  {key? : Pending → Option Visit}

theorem Path.run_find_shownKey (path : Path) (hs : Sources known element)
    (hk : ∀ v, known v → v.DrawnIn low m) (hlow : low ≤ m) (hr : known (.message root))
    (hn : ((path.find root Pending.shownKey?).run m).2 ≤ low + 2 ^ 64) :
    (path.find root Pending.shownKey?).run m = (path.find root).run m :=
  (Search.abreast_start hr m).run hs hk hlow hn

theorem Query.supply_le_findBranches (root : Message) (paths : List Path) (m : Nat) :
    m ≤ ((findBranches root paths key?).run m).2 := by
  induction paths generalizing m with
  | nil => exact Nat.le_refl m
  | cons p rest ih =>
    rw [run_findBranches_cons]
    exact Nat.le_trans (Search.supply_le_run p.steps (.start root m key?)) (ih _)

theorem Query.run_findBranches_shownKey (hs : Sources known element)
    (hk : ∀ v, known v → v.DrawnIn low m) (hlow : low ≤ m) (hr : known (.message root))
    (paths : List Path)
    (hn : ((findBranches root paths Pending.shownKey?).run m).2 ≤ low + 2 ^ 64) :
    (findBranches root paths Pending.shownKey?).run m = (findBranches root paths).run m := by
  induction paths generalizing m with
  | nil => rfl
  | cons p rest ih =>
    rw [run_findBranches_cons] at hn ⊢
    have hfirst := p.run_find_shownKey hs hk hlow hr
      (Nat.le_trans (supply_le_findBranches root rest _) hn)
    have hle : m ≤ ((p.find root).run m).2 := Search.supply_le_run p.steps (.start root m)
    rw [hfirst] at hn ⊢
    rw [run_findBranches_cons, ih (fun v hv => (hk v hv).mono hle) (Nat.le_trans hlow hle) hn]

/-- A program finds what would be found if no identity ever came again, unless its counter comes
round during the search to a draw from `low` on. -/
theorem Query.run_findAll (q : Query) (hs : Sources known element)
    (hk : ∀ v, known v → v.DrawnIn low m) (hlow : low ≤ m) (hr : known (.message root))
    (hn : ((q.findAll root).run m).2 ≤ low + 2 ^ 64) :
    (q.findAll root).run m = (q.find root).run m := by
  have hbranches := run_findBranches_shownKey hs hk hlow hr q.branches hn
  unfold findAll find
  rw [StateT.run_bind, StateT.run_bind, hbranches]

end Finding

end RecordPath
