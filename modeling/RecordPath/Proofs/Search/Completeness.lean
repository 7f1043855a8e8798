import RecordPath.Proofs.Search.Course

namespace RecordPath

/-- The expansions of the first items are among the second ones, up to the identities drawn since
`supply`. -/
def ClosedUnder (steps : List Step) (supply : Nat) (expanded items : List Pending) : Prop :=
  ∀ p ∈ expanded, ∀ step, steps[p.step]? = some step →
    ∃ n, supply ≤ n ∧ ∀ q ∈ ((p.expand step).run n).1.pushes,
      ∃ r ∈ items, r.outline supply = q.outline supply

variable {steps : List Step} {root : Message} {supply : Nat}

theorem ClosedUnder.mono {expanded items items' : List Pending}
    (h : ClosedUnder steps supply expanded items) (hsub : ∀ p ∈ items, p ∈ items') :
    ClosedUnder steps supply expanded items' := by
  intro p hp step hs
  obtain ⟨n, hn, hq⟩ := h p hp step hs
  refine ⟨n, hn, fun q hmem => ?_⟩
  obtain ⟨r, hr, he⟩ := hq q hmem
  exact ⟨r, hsub r hr, he⟩

/-- Whatever can be derived is among items that hold the root and are closed under expansion. -/
theorem Derives.mem_of_closed {items : List Pending} (hc : ClosedUnder steps supply items items)
    (hr : ⟨0, .message root, none⟩ ∈ items) {p : Pending} (h : Derives steps root supply p) :
    ∃ r ∈ items, r.outline supply = p.outline supply := by
  induction h with
  | root => exact ⟨_, hr, rfl⟩
  | @next p q step n _ hs hn hq ih =>
    obtain ⟨r, hr, ho⟩ := ih
    have hstep : r.step = p.step := congrArg Prod.fst ho
    obtain ⟨n', hn', hall⟩ := hc r hr step (hstep ▸ hs)
    -- `r` expands into a twin of `q`, though under other identities
    have hmem := List.mem_map_of_mem (f := Pending.outline supply) hq
    rw [← Pending.outline_expand step ho hn' hn] at hmem
    obtain ⟨q', hq', he⟩ := List.mem_map.1 hmem
    obtain ⟨t, ht, hto⟩ := hall q' hq'
    exact ⟨t, ht, hto.trans he⟩

namespace Search

structure History (steps : List Step) (root : Message) (supply : Nat) (known : Value → Prop)
    (gone : List Pending) (s : Search) : Prop where
  coherent : Coherent known s.supply
  supply_le : supply ≤ s.supply
  known : ∀ p ∈ gone ++ s.queue.toList, known p.value
  remembers : s.queue.Remembers gone
  derived : ∀ p ∈ gone ++ s.queue.toList, Derives steps root supply p
  closed : ClosedUnder steps supply gone (gone ++ s.queue.toList)

theorem outline_eq_of_key {known : Value → Prop} {n : Nat} (h : Coherent known n) {p q : Pending}
    {k : Visit} (hp : known p.value) (hq : known q.value) (hkp : Keyed.key? p = some k)
    (hkq : Keyed.key? q = some k) : p.outline supply = q.outline supply := by
  obtain ⟨i, hi, rfl⟩ := Option.map_eq_some_iff.1 hkp
  obtain ⟨j, hj, he⟩ := Option.map_eq_some_iff.1 hkq
  obtain ⟨hstep, rfl⟩ := Visit.mk.inj he
  have hv : p.value = q.value := h.same _ _ hp hq (hi.trans hj.symm) (by simp [hi])
  simp only [Pending.outline, hstep, hv]

theorem history_start {known : Value → Prop} (h : Coherent known supply)
    (hr : known (.message root)) : (start root supply).History steps root supply known [] where
  coherent := h
  supply_le := Nat.le_refl _
  known := by simpa [toList_start] using hr
  remembers := (OnceQueue.remembers_empty.push _).1
  derived := by simpa [toList_start] using Derives.root
  closed := by
    intro p hp
    cases hp

/-- What a search has found stays derivable and known, and closed under expansion. -/
theorem invariant_history :
    Invariant steps fun gone s => ∃ known, s.History steps root supply known gone where
  pass {gone s p queue} := by
    rintro ⟨known, h⟩ hpop hs
    have hitems := append_of_pop? gone hpop
    have hknown := h.known
    have hderived := h.derived
    have hclosed := h.closed
    rw [hitems] at hknown hderived hclosed
    refine ⟨known, h.coherent, h.supply_le, hknown, h.remembers.pop hpop, hderived, ?_⟩
    intro q hq step hstep
    rcases List.mem_append.1 hq with hq | hq
    · exact hclosed q hq step hstep
    -- an item that has passed all steps has no expansion to account for
    · rw [List.mem_singleton.1 hq, hs] at hstep
      cases hstep
  expand {gone s p queue step} := by
    rintro ⟨known, h⟩ hpop hs
    have hitems := append_of_pop? gone hpop
    have hknown := h.known
    have hderived := h.derived
    have hclosed := h.closed
    rw [hitems] at hknown hderived hclosed
    have hp : p ∈ (gone ++ [p]) ++ queue.toList := by simp
    have hc := h.coherent.expand (hknown p hp) step
    obtain ⟨hrem', hcov⟩ :=
      (h.remembers.pop hpop).pushAll ((p.expand step).run s.supply).1.pushes
    obtain ⟨hold, hsplit⟩ := mem_pushAll (gone ++ [p]) queue
      ((p.expand step).run s.supply).1.pushes
    have hknown' : ∀ q ∈ (gone ++ [p]) ++
        (queue.pushAll ((p.expand step).run s.supply).1.pushes).toList,
        known q.value ∨ ∃ r ∈ ((p.expand step).run s.supply).1.pushes, r.value = q.value :=
      fun q hq => (hsplit q hq).imp (hknown q) fun hq => ⟨q, hq, rfl⟩
    refine ⟨_, hc, Nat.le_trans h.supply_le (p.supply_le_expand step s.supply), hknown', hrem',
      ?_, ?_⟩
    · intro q hq
      rcases hsplit q hq with hq | hq
      · exact hderived q hq
      · exact .next (hderived p hp) hs h.supply_le hq
    · intro q hq step' hstep'
      rcases List.mem_append.1 hq with hq | hq
      · exact hclosed.mono hold q hq step' hstep'
      · obtain rfl := List.mem_singleton.1 hq
        obtain rfl := Option.some.inj (hs.symm.trans hstep')
        refine ⟨s.supply, h.supply_le, fun r hr => ?_⟩
        -- a refused item has a twin under its key, which is as good
        obtain ⟨b, hb, rfl | ⟨k, hkb, hkr⟩⟩ := hcov r hr
        · exact ⟨b, hb, rfl⟩
        · exact ⟨b, hb, outline_eq_of_key hc (hknown' b hb) (.inr ⟨r, hr, rfl⟩) hkb hkr⟩

/-- A whole search deals with items that are closed under expansion, and yields what they
contribute. -/
theorem History.run {known : Value → Prop} {gone : List Pending} {s : Search}
    (h : s.History steps root supply known gone) :
    ∃ items, (Search.run steps s).1.values = items.flatMap (emission steps) ∧
      (∀ p ∈ items, Derives steps root supply p) ∧
      (∀ p ∈ gone ++ s.queue.toList, p ∈ gone ++ items) ∧
      ClosedUnder steps supply (gone ++ items) (gone ++ items) := by
  obtain ⟨items, s', ⟨⟨known', h'⟩, hkept⟩, hempty, hv⟩ :=
    (invariant_history.and (invariant_kept steps (gone ++ s.queue.toList))).run
      ⟨⟨known, h⟩, fun _ => id⟩
  have hderived := h'.derived
  have hclosed := h'.closed
  rw [hempty, List.append_nil] at hderived hclosed hkept
  exact ⟨items, hv, fun p hp => hderived p (List.mem_append_right gone hp), hkept, hclosed⟩

/-- What is ahead in the queue is what the next turn deals with. -/
theorem run_of_queue (steps : List Step) {p : Pending} {ahead : List (Nat × Value)} {s : Search}
    (h : s.queue.toList.map (Pending.outline supply) = p.outline supply :: ahead) :
    ∃ (q : Pending) (queue : OnceQueue Pending Visit), q.outline supply = p.outline supply ∧
      queue.toList.map (Pending.outline supply) = ahead ∧
      ((steps[p.step]? = none ∧ (Search.run steps s).1.values =
          contribution q.value ++ (Search.run steps ⟨queue, s.supply⟩).1.values) ∨
        ∃ step, steps[p.step]? = some step ∧ (Search.run steps s).1.values =
          (Search.run steps ⟨queue.pushAll ((q.expand step).run s.supply).1.pushes,
            ((q.expand step).run s.supply).2⟩).1.values) := by
  cases ha : s.advance? steps with
  | none =>
    rw [advance?_eq_none.1 ha] at h
    cases h
  | some r =>
    obtain ⟨f, s'⟩ := r
    obtain ⟨q, queue, hpop, hcase⟩ := advance?_cases ha
    rw [OnceQueue.toList_of_pop? hpop, List.map_cons] at h
    obtain ⟨hq, hrest⟩ := List.cons.inj h
    have hstep : q.step = p.step := congrArg Prod.fst hq
    rw [hstep] at hcase
    refine ⟨q, queue, hq, hrest, ?_⟩
    rcases hcase with ⟨hs, hf, rfl⟩ | ⟨step, hs, hf, rfl⟩
    · exact .inl ⟨hs, by rw [run_of_advance? ha, hf]⟩
    · exact .inr ⟨step, hs, by rw [run_of_advance? ha, hf, List.nil_append]⟩

/-- A search whose queue is part of what is pending yields part of what all that is pending yields,
in the same order. -/
theorem run_sublist_exhaust {pending : List Pending} {n : Nat} {s : Search}
    (hs : supply ≤ s.supply) (hn : supply ≤ n)
    (h : (s.queue.toList.map (Pending.outline supply)).Sublist
      (pending.map (Pending.outline supply))) :
    ((Search.run steps s).1.values.map (Value.eraseFresh supply)).Sublist
      ((exhaust steps pending n).map (Value.eraseFresh supply)) := by
  induction pending, n using exhaust.induct steps generalizing s with
  | case1 n =>
    have hl : s.queue.toList = [] := by simpa using h
    rw [run_of_advance?_eq_none (advance?_eq_none.2 hl)]
    exact List.nil_sublist _
  | case2 n p rest hp ih =>
    rw [exhaust]
    split
    · rw [List.map_append]
      -- the search was refused this item, or has it first in its queue
      rcases List.sublist_cons_iff.1 h with h | ⟨ahead, ha, h⟩
      · exact (ih hs hn h).trans (List.sublist_append_right ..)
      · obtain ⟨q, queue, hq, hrest, ⟨-, hv⟩ | ⟨step, hstep, -⟩⟩ := run_of_queue steps ha
        · rw [hv, List.map_append, map_contribution_congr (congrArg Prod.snd hq)]
          exact (ih (s := ⟨queue, s.supply⟩) hs hn (hrest.symm ▸ h)).append_left _
        · rw [hp] at hstep
          cases hstep
    · rename_i step hstep
      rw [hp] at hstep
      cases hstep
  | case3 n p rest step hp ih =>
    rw [exhaust]
    split
    · rename_i hstep
      rw [hp] at hstep
      cases hstep
    · rename_i step' hstep
      obtain rfl := Option.some.inj (hp.symm.trans hstep)
      have hn' := Nat.le_trans hn (p.supply_le_expand step n)
      rcases List.sublist_cons_iff.1 h with h | ⟨ahead, ha, h⟩
      · refine ih hs hn' (h.trans ?_)
        rw [List.map_append]
        exact List.sublist_append_left ..
      · obtain ⟨q, queue, hq, hrest, ⟨hstep', -⟩ | ⟨step', hstep', hv⟩⟩ :=
          run_of_queue steps ha
        · rw [hp] at hstep'
          cases hstep'
        · obtain rfl := Option.some.inj (hp.symm.trans hstep')
          rw [hv]
          refine ih (Nat.le_trans hs (q.supply_le_expand step s.supply)) hn' ?_
          obtain ⟨admitted, hadm, hlist⟩ :=
            queue.toList_pushAll (κ := Visit) ((q.expand step).run s.supply).1.pushes
          rw [hlist, List.map_append, List.map_append, hrest]
          refine h.append ?_
          -- both have drawn identities of their own
          rw [← Pending.outline_expand step hq hs hn]
          exact hadm.map _

theorem mem_emission {p : Pending} {u : Value} :
    u ∈ emission steps p ↔ steps.length ≤ p.step ∧ u ∈ contribution p.value := by
  unfold emission
  split
  · rename_i h
    simp [List.getElem?_eq_none_iff.1 h]
  · rename_i step h
    simp [Nat.not_le.2 (List.getElem?_eq_some_iff.1 h).1]

end Search

/-- A path yields what the items contribute that can be derived and have passed all steps, up to the
identities of the collections made underway, and yields it in the order in which it comes up when
every item is admitted. -/
theorem Path.find_eq_derivable (path : Path) {w : Workshop} {root : Message} (hw : w.Reached)
    (hr : .message root ∈ w.values) :
    (∀ u, u ∈ ((path.find root).run w.supply).1.values.map (Value.eraseFresh w.supply) ↔
        ∃ p, Derives path.steps root w.supply p ∧ path.steps.length ≤ p.step ∧
          u ∈ (Search.contribution p.value).map (Value.eraseFresh w.supply)) ∧
      (((path.find root).run w.supply).1.values.map (Value.eraseFresh w.supply)).Sublist
        ((Search.exhaust path.steps [⟨0, .message root, none⟩] w.supply).map
          (Value.eraseFresh w.supply)) := by
  have hrun : ((path.find root).run w.supply).1.values =
      (Search.run path.steps (.start root w.supply)).1.values := rfl
  rw [hrun]
  obtain ⟨known, hk⟩ := hw.holds
  have hstart : (Search.start root w.supply).History path.steps root w.supply known [] :=
    Search.history_start hk.coherent (hk.values _ hr)
  obtain ⟨items, hv, hd, hall, hc⟩ := hstart.run
  have hroot : ⟨0, .message root, none⟩ ∈ items := hall _ (by simp [Search.toList_start])
  refine ⟨fun u => ?_, Search.run_sublist_exhaust (Nat.le_refl _) (Nat.le_refl _) ?_⟩
  · rw [hv, List.mem_map]
    constructor
    · rintro ⟨v, hv, rfl⟩
      obtain ⟨p, hp, hpv⟩ := List.mem_flatMap.1 hv
      obtain ⟨hstep, hmem⟩ := Search.mem_emission.1 hpv
      exact ⟨p, hd p hp, hstep, List.mem_map_of_mem hmem⟩
    · -- the item itself may have been refused, but a twin of it was dealt with
      rintro ⟨p, hp, hstep, hu⟩
      obtain ⟨r, hr, ho⟩ := hp.mem_of_closed hc hroot
      have hrstep : r.step = p.step := congrArg Prod.fst ho
      rw [← Search.map_contribution_congr (congrArg Prod.snd ho)] at hu
      obtain ⟨v, hvr, rfl⟩ := List.mem_map.1 hu
      exact ⟨v, List.mem_flatMap.2 ⟨r, hr, Search.mem_emission.2 ⟨hrstep ▸ hstep, hvr⟩⟩, rfl⟩
  · rewrite [Search.toList_start]
    exact List.Sublist.refl _

namespace Twins

def leafType : MessageType where
  name := "Leaf"
  fields := []
  index_eq := by decide
  nodup := by decide

def pairType : MessageType where
  name := "Pair"
  fields := [⟨"left", 0, .message "Leaf", .single⟩, ⟨"right", 1, .message "Leaf", .single⟩]
  index_eq := by decide
  nodup := by decide

def leaf : Message := ⟨⟨0⟩, leafType, []⟩

def pair : Message := ⟨⟨1⟩, pairType, [some (.message leaf), some (.message leaf)]⟩

def workshop : Workshop where
  values := [.message pair, .message leaf]
  builders :=
    [⟨pairType, [some (.message leaf), some (.message leaf)], none⟩,
      ⟨pairType, [some (.message leaf), none], none⟩, ⟨pairType, [none, none], none⟩]
  supply := 2

theorem workshop_reached : workshop.Reached := by
  have h0 := Workshop.Reached.opened 0
  have h1 := h0.step (.empty leafType rfl)
  have h2 := h1.step (.start pairType)
  have h3 := h2.step (.set "left" (.head _) (.head _) rfl)
  have h4 := h3.step (.set "right" (.head _) (.head _) rfl)
  exact h4.step (.build (.head _) rfl)

end Twins

/-- A record that is reached in two ways is found, and found in order. -/
theorem Path.find_eq_derivable_twins :
    Twins.workshop.Reached ∧ .message Twins.pair ∈ Twins.workshop.values ∧
      .message Twins.leaf ∈
        (((Path.mk [.root, .field "*"]).find Twins.pair).run 2).1.values.map
          (Value.eraseFresh 2) ∧
      ((((Path.mk [.root, .field "*"]).find Twins.pair).run 2).1.values.map
          (Value.eraseFresh 2)).Sublist
        ((Search.exhaust [.root, .field "*"] [⟨0, .message Twins.pair, none⟩] 2).map
          (Value.eraseFresh 2)) := by
  have hw := Twins.workshop_reached
  have hr : .message Twins.pair ∈ Twins.workshop.values := .head _
  obtain ⟨hiff, hsub⟩ := Path.find_eq_derivable ⟨[.root, .field "*"]⟩ hw hr
  have h0 : Derives [.root, .field "*"] Twins.pair 2 ⟨0, .message Twins.pair, none⟩ := .root
  have h1 : Derives [.root, .field "*"] Twins.pair 2 ⟨1, .message Twins.pair, none⟩ :=
    h0.next (show _ = some Step.root from rfl) (Nat.le_refl 2) (.head _)
  have h2 : Derives [.root, .field "*"] Twins.pair 2
      ⟨2, .message Twins.leaf, some ⟨"left", 0, .message "Leaf", .single⟩⟩ :=
    h1.next (show _ = some (Step.field "*") from rfl) (Nat.le_refl 2) (.head _)
  exact ⟨hw, hr, (hiff _).2 ⟨_, h2, Nat.le_refl _, .head _⟩, hsub⟩

end RecordPath
