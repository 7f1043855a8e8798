import RecordPath.Proofs.Search.Completeness
import RecordPath.Proofs.Search.Descent

namespace RecordPath

def Value.record? (v : Value) : Option Ident := v.toMessage?.map (·.ident)

/-- A step that passes on the value that it is applied to, or a part of it. -/
def Step.isNarrow : Step → Bool
  | .root | .self | .key _ => true
  | .field _ | .descend => false

/-- A narrow step passes on one value at most. -/
theorem Pending.length_pushes_le {p : Pending} {step : Step} (h : step.isNarrow = true) (n : Nat) :
    ((p.expand step).run n).1.pushes.length ≤ 1 := by
  cases step with
  | root | self => exact Nat.le_refl 1
  | key expr =>
    change (p.applyKey expr ⟨n⟩).pushes.length ≤ 1
    rcases p.applyKey_cases expr ⟨n⟩ with he | ⟨v, field, he, -⟩ <;> simp [he]
  | field | descend => cases h

/-- Only a descent leaves values at the step at which they were. -/
theorem Pending.step_of_mem_expand {p q : Pending} {step : Step} {n : Nat}
    (h : q ∈ ((p.expand step).run n).1.pushes) :
    q.step = p.step + 1 ∨ step = .descend ∧ q.step = p.step := by
  cases step with
  | root | self =>
    rw [List.mem_singleton.1 h]
    exact .inl rfl
  | field name => exact .inl (readFields_step _ _ _ q h)
  | key expr => exact .inl ((p.advances_applyKey expr ⟨n⟩).1 q h)
  | descend => exact (descend_cases h).elim (fun h => .inl h.1) fun h => .inr ⟨rfl, h.1⟩

/-- What has an identity is not picked from a scalar. -/
theorem Value.Picked.ident?_ne_none {filters : Prop} {fresh : Ident} {u v : Value}
    (h : Picked filters fresh u v)
    (hv : v.ident? ≠ none) : u.ident? ≠ none := by
  cases h with
  | self => exact hv
  | scalar h => exact absurd h hv
  | item | entry | filtered => exact nofun

/-- The items that a path leads to, along with the identities of the values from which they have
been picked. A field and a descent come upon values as they are in the tree; what a narrow step
makes of such a value, a list of some of its elements say, is still picked from that value. -/
inductive Stems (steps : List Step) (root : Message) (supply : Nat) :
    Pending → Option Ident → Prop
  | root : Stems steps root supply ⟨0, .message root, none⟩ (some root.ident)
  | pick {p q : Pending} {origin : Option Ident} {step : Step} {n : Nat}
      (h : Stems steps root supply p origin) (hs : steps[p.step]? = some step)
      (hnarrow : step.isNarrow = true) (hn : supply ≤ n)
      (hq : q ∈ ((p.expand step).run n).1.pushes) : Stems steps root supply q origin
  | read {p q : Pending} {origin : Option Ident} {step : Step} {n : Nat}
      (h : Stems steps root supply p origin) (hs : steps[p.step]? = some step)
      (hnarrow : step.isNarrow = false) (hn : supply ≤ n)
      (hq : q ∈ ((p.expand step).run n).1.pushes) : Stems steps root supply q q.value.ident?

variable {steps : List Step} {root : Message} {supply : Nat} {p q : Pending}
  {origin : Option Ident}

/-- No item is more than one step past the last. -/
theorem Stems.step_le (h : Stems steps root supply p origin) : p.step ≤ steps.length := by
  induction h with
  | root => exact Nat.zero_le _
  | pick _ hs _ _ hq ih | read _ hs _ _ hq ih =>
    have := (List.getElem?_eq_some_iff.1 hs).1
    rcases Pending.step_of_mem_expand hq with h | ⟨-, h⟩ <;> omega

theorem Stems.origin_ne_none (h : Stems steps root supply p origin) (hp : p.value.ident? ≠ none) :
    origin ≠ none := by
  induction h with
  | root => exact nofun
  | read => exact hp
  | @pick p q _ step n _ _ hnarrow _ hq ih =>
    cases step with
    | root | self =>
      rw [List.mem_singleton.1 hq] at hp
      exact ih hp
    | key expr =>
      rcases p.applyKey_cases expr ⟨n⟩ with he | ⟨v, field, he, hpick⟩ <;>
        change q ∈ (p.applyKey expr ⟨n⟩).pushes at hq <;> rw [he] at hq
      · cases hq
      · rw [List.mem_singleton.1 hq] at hp
        exact ih (hpick.ident?_ne_none hp)
    | field | descend => cases hnarrow

namespace Search

/-- No record is contributed twice by what passes all steps: neither by one list, nor by two values
one of which is a list, unless they are picked from one and the same value. -/
structure Unshared (steps : List Step) (root : Message) (supply : Nat) : Prop where
  once : ∀ p origin, Stems steps root supply p origin → steps.length ≤ p.step →
    (p.value.records.map (·.ident)).Nodup
  apart : ∀ p q origin origin', Stems steps root supply p origin →
    Stems steps root supply q origin' → steps.length ≤ p.step → steps.length ≤ q.step →
      p.value.isList = true → ∀ m ∈ p.value.records, ∀ m' ∈ q.value.records,
        m.ident = m'.ident → origin = origin'

theorem filterMap_record?_contribution (v : Value) :
    (contribution v).filterMap Value.record? = v.records.map (·.ident) := by
  cases v with
  | list l => exact List.map_filterMap.symm
  | _ => rfl

/-- The records among what an item contributes. -/
theorem filterMap_record?_emission (steps : List Step) (p : Pending) :
    (emission steps p).filterMap Value.record? =
      if steps.length ≤ p.step then p.value.records.map (·.ident) else [] := by
  unfold emission
  split
  · rename_i hs
    rw [if_pos (List.getElem?_eq_none_iff.1 hs), filterMap_record?_contribution]
  · rename_i step hs
    rw [if_neg (Nat.not_le.2 (List.getElem?_eq_some_iff.1 hs).1)]
    rfl

/-- Items at one step that are picked from different values, or at least from no known one. At a
descent nothing is said: a list may wait there along with what has been picked from it. -/
def OriginsApart (steps : List Step) (x y : Pending × Option Ident) : Prop :=
  x.1.step = y.1.step → steps[x.1.step]? ≠ some .descend → ∀ i, x.2 = some i → y.2 ≠ some i

/-- The items that have left the queue and those in it, with their origins. What a narrow step has
picked comes from an item that has left the queue. -/
structure Trail (steps : List Step) (root : Message) (supply : Nat) (gone : List Pending)
    (s : Search) (past ahead : List (Pending × Option Ident)) : Prop where
  gone_eq : past.map Prod.fst = gone
  queue_eq : ahead.map Prod.fst = s.queue.toList
  supply_le : supply ≤ s.supply
  stems : ∀ x ∈ past ++ ahead, Stems steps root supply x.1 x.2
  apart : (past ++ ahead).Pairwise (OriginsApart steps)
  picked : ∀ x ∈ past ++ ahead, ∀ k step, x.1.step = k + 1 → steps[k]? = some step →
    step.isNarrow = true → steps[k + 1]? ≠ some .descend → ∃ y ∈ past, y.1.step = k ∧ y.2 = x.2
  read : ∀ x ∈ past ++ ahead, ∀ k step, x.1.step = k + 1 → steps[k]? = some step →
    step.isNarrow = false → x.2 = x.1.value.ident?

variable {gone : List Pending} {s : Search} {past ahead : List (Pending × Option Ident)}
  {queue : OnceQueue Pending Visit} {step : Step}

theorem trail_start (root : Message) (supply : Nat) :
    Trail steps root supply [] (start root supply) []
      [(⟨0, .message root, none⟩, some root.ident)] where
  gone_eq := rfl
  queue_eq := (toList_start root supply).symm
  supply_le := Nat.le_refl supply
  stems := List.forall_mem_singleton.2 .root
  apart := List.pairwise_singleton ..
  picked := List.forall_mem_singleton.2 nofun
  read := List.forall_mem_singleton.2 nofun

def originOf (step : Step) (origin : Option Ident) (q : Pending) : Option Ident :=
  if step.isNarrow then origin else q.value.ident?

/-- The item that leaves the queue comes to the others that have left it. -/
theorem Trail.pass (h : Trail steps root supply gone s past ((p, origin) :: ahead))
    (hpop : s.queue.pop? = some (p, queue)) :
    Trail steps root supply (gone ++ [p]) ⟨queue, s.supply⟩ (past ++ [(p, origin)]) ahead := by
  have hqueue := h.queue_eq
  rw [OnceQueue.toList_of_pop? hpop] at hqueue
  have hitems : (past ++ [(p, origin)]) ++ ahead = past ++ (p, origin) :: ahead := by simp
  refine ⟨by simp [h.gone_eq], (List.cons.inj hqueue).2, h.supply_le, hitems ▸ h.stems,
    hitems ▸ h.apart, ?_, hitems ▸ h.read⟩
  intro x hx k step hk hs hnarrow hd
  obtain ⟨y, hy, hyx⟩ := h.picked x (hitems ▸ hx) k step hk hs hnarrow hd
  exact ⟨y, List.mem_append_left _ hy, hyx⟩

/-- What a narrow step makes of an item is told apart from all that is there: whatever else was
picked from the same value would have come from another item at the step. -/
theorem Trail.apart_pick (h : Trail steps root supply gone s past ((p, origin) :: ahead))
    (hs : steps[p.step]? = some step) (hnarrow : step.isNarrow = true) (hq : q.step = p.step + 1) :
    ∀ x ∈ past ++ (p, origin) :: ahead, OriginsApart steps x (q, origin) := by
  intro x hx hstep hd i hi hoi
  have hxstep : x.1.step = p.step + 1 := hstep.trans hq
  obtain ⟨y, hy, hyp, hyx⟩ := h.picked x hx p.step step hxstep hs hnarrow (hxstep ▸ hd)
  refine (List.pairwise_append.1 h.apart).2.2 y hy (p, origin) (.head _) hyp ?_ i (hyx.trans hi) hoi
  rw [hyp, hs]
  rintro ⟨⟩
  cases hnarrow

theorem originsApart_of_apart {x y : Pending × Option Ident} (h : Apart Keyed.key? x.1 y.1)
    (hx : x.2 = x.1.value.ident?) (hy : y.2 = y.1.value.ident?) : OriginsApart steps x y := by
  intro hstep _ i hi hyi
  refine h ⟨x.1.step, i⟩ (Option.map_eq_some_iff.2 ⟨i, hx.symm.trans hi, rfl⟩) ?_
  exact Option.map_eq_some_iff.2 ⟨i, hy.symm.trans hyi, by rw [hstep]⟩

/-- What a field or a descent comes upon is told apart by its own identity from all else that is at
the step after it. -/
theorem Trail.apart_read (h : Trail steps root supply gone s past ((p, origin) :: ahead))
    (hs : steps[p.step]? = some step) (hnarrow : step.isNarrow = false)
    (hq : q.step = p.step + 1 ∨ step = .descend ∧ q.step = p.step) :
    ∀ x ∈ past ++ (p, origin) :: ahead, Apart Keyed.key? x.1 q →
      OriginsApart steps x (q, q.value.ident?) := by
  intro x hx hapart hstep hd
  refine originsApart_of_apart hapart ?_ rfl hstep hd
  rcases hq with hq | ⟨rfl, hq⟩
  · exact h.read x hx p.step step (hstep.trans hq) hs hnarrow
  · exact absurd hs (hq ▸ hstep ▸ hd)

/-- Some of what a step makes of an item, with their origins, is told apart from all that is
there. -/
theorem Trail.pairwise_expand (h : Trail steps root supply gone s past ((p, origin) :: ahead))
    (hs : steps[p.step]? = some step) {admitted : List Pending}
    (hadm : admitted.Sublist ((p.expand step).run s.supply).1.pushes)
    (hd : (gone ++ s.queue.toList ++ admitted).Pairwise (Apart Keyed.key?)) :
    (past ++ (p, origin) :: ahead ++ admitted.map fun q => (q, originOf step origin q)).Pairwise
      (OriginsApart steps) := by
  have hstep (q : Pending) (hq : q ∈ admitted) := Pending.step_of_mem_expand (hadm.subset hq)
  rw [← h.gone_eq, ← h.queue_eq, ← List.map_append] at hd
  obtain ⟨-, hnew, hcross⟩ := List.pairwise_append.1 hd
  refine List.pairwise_append.2 ⟨h.apart, List.pairwise_map.2 ?_, fun x hx y hy => ?_⟩
  · cases hnarrow : step.isNarrow with
    | true =>
      have hlen := hadm.length_le.trans (Pending.length_pushes_le hnarrow s.supply)
      match admitted with
      | [] => exact .nil
      | [q] => exact List.pairwise_singleton ..
    | false =>
      exact hnew.imp fun hapart => originsApart_of_apart hapart (by simp [originOf, hnarrow])
        (by simp [originOf, hnarrow])
  · obtain ⟨q, hq, rfl⟩ := List.mem_map.1 hy
    cases hnarrow : step.isNarrow with
    | true =>
      rw [originOf, if_pos hnarrow]
      refine h.apart_pick hs hnarrow ((hstep q hq).resolve_right ?_) x hx
      rintro ⟨rfl, -⟩
      cases hnarrow
    | false =>
      rw [originOf, if_neg (Bool.eq_false_iff.1 hnarrow)]
      exact h.apart_read hs hnarrow (hstep q hq) x hx
        (hcross x.1 (List.mem_map_of_mem hx) q hq)

theorem stems_originOf (h : Stems steps root supply p origin) (hs : steps[p.step]? = some step)
    {n : Nat} (hn : supply ≤ n) (hq : q ∈ ((p.expand step).run n).1.pushes) :
    Stems steps root supply q (originOf step origin q) := by
  unfold originOf
  split
  · rename_i hnarrow
    exact .pick h hs hnarrow hn hq
  · rename_i hnarrow
    exact .read h hs (Bool.eq_false_iff.2 hnarrow) hn hq

/-- What is pushed comes with the origin of the item that it is made of, or with its own. -/
theorem Trail.expand (h : Trail steps root supply gone s past ((p, origin) :: ahead))
    (hpop : s.queue.pop? = some (p, queue)) (hs : steps[p.step]? = some step)
    (hd : (queue.pushAll ((p.expand step).run s.supply).1.pushes).Distinct (gone ++ [p])) :
    ∃ more, Trail steps root supply (gone ++ [p])
      ⟨queue.pushAll ((p.expand step).run s.supply).1.pushes, ((p.expand step).run s.supply).2⟩
      (past ++ [(p, origin)]) (ahead ++ more) := by
  obtain ⟨admitted, hadm, hlist⟩ :=
    queue.toList_pushAll (κ := Visit) ((p.expand step).run s.supply).1.pushes
  have hpass := h.pass hpop
  have hitems (more : List (Pending × Option Ident)) : past ++ [(p, origin)] ++ (ahead ++ more) =
      past ++ (p, origin) :: ahead ++ more := by simp
  rw [OnceQueue.Distinct, hlist, ← List.append_assoc, ← append_of_pop? gone hpop] at hd
  refine ⟨admitted.map fun q => (q, originOf step origin q), hpass.gone_eq, ?_,
    Nat.le_trans h.supply_le (p.supply_le_expand step s.supply), ?_,
    hitems _ ▸ h.pairwise_expand hs hadm hd, ?_, ?_⟩
  · simp [hlist, ← hpass.queue_eq, Function.comp_def]
  all_goals
    intro x hx
    rw [← List.append_assoc] at hx
    rcases List.mem_append.1 hx with hx | hx
  · exact hpass.stems x hx
  · obtain ⟨q, hq, rfl⟩ := List.mem_map.1 hx
    exact stems_originOf (h.stems (p, origin) (by simp)) hs h.supply_le (hadm.subset hq)
  · exact hpass.picked x hx
  · obtain ⟨q, hq, rfl⟩ := List.mem_map.1 hx
    intro k step' hk hs' hnarrow hdescend
    dsimp only at hk
    rcases Pending.step_of_mem_expand (hadm.subset hq) with hstep | ⟨rfl, hstep⟩
    · obtain rfl : p.step = k := by omega
      obtain rfl := Option.some.inj (hs.symm.trans hs')
      exact ⟨(p, origin), by simp, rfl, by rw [originOf, if_pos hnarrow]⟩
    · exact absurd hs (by rwa [← hstep, hk])
  · exact hpass.read x hx
  · obtain ⟨q, hq, rfl⟩ := List.mem_map.1 hx
    intro k step' hk hs' hnarrow
    dsimp only at hk
    rcases Pending.step_of_mem_expand (hadm.subset hq) with hstep | ⟨rfl, hstep⟩
    · obtain rfl : p.step = k := by omega
      obtain rfl := Option.some.inj (hs.symm.trans hs')
      rw [originOf, if_neg (Bool.eq_false_iff.1 hnarrow)]
    · rfl

/-- A tidy search keeps track of the origins of its items. -/
theorem invariant_trail (steps : List Step) (root : Message) (supply : Nat) :
    Invariant steps fun gone s =>
      s.Tidy gone ∧ ∃ past ahead, Trail steps root supply gone s past ahead where
  pass := by
    rintro gone s p queue ⟨htidy, past, ahead, h⟩ hpop hs
    obtain ⟨⟨q, origin⟩, rest, rfl, rfl, -⟩ :=
      List.map_eq_cons_iff.1 (h.queue_eq.trans (OnceQueue.toList_of_pop? hpop))
    exact ⟨(invariant_tidy steps).pass htidy hpop hs, _, _, h.pass hpop⟩
  expand := by
    rintro gone s p queue step ⟨htidy, past, ahead, h⟩ hpop hs
    obtain ⟨⟨q, origin⟩, rest, rfl, rfl, -⟩ :=
      List.map_eq_cons_iff.1 (h.queue_eq.trans (OnceQueue.toList_of_pop? hpop))
    have htidy' := (invariant_tidy steps).expand htidy hpop hs
    obtain ⟨more, hmore⟩ := h.expand hpop hs htidy'.distinct
    exact ⟨htidy', _, _, hmore⟩

theorem exists_ident?_of_mem_records {v : Value} {m : Message} (h : m ∈ v.records) :
    v.ident? ≠ none := by
  cases v with
  | message | list => exact nofun
  | _ => cases h

/-- A message has only itself to contribute. -/
theorem record_eq_ident? {v : Value} (hv : v.isList = false) {m : Message} (hm : m ∈ v.records) :
    v.ident? = some m.ident := by
  cases v with
  | message => rw [List.mem_singleton.1 hm]; rfl
  | list => cases hv
  | _ => cases hm

/-- Items that are told apart contribute records of their own, where none is shared. -/
theorem nodup_emissions {items : List (Pending × Option Ident)} (hu : Unshared steps root supply)
    (hstems : ∀ x ∈ items, Stems steps root supply x.1 x.2)
    (hkeys : items.Pairwise fun x y => Apart Keyed.key? x.1 y.1)
    (horigins : items.Pairwise (OriginsApart steps)) :
    (items.flatMap fun x => (emission steps x.1).filterMap Value.record?).Nodup := by
  refine List.nodup_flatMap.2 ⟨fun x hx => ?_, (hkeys.and horigins).imp_of_mem ?_⟩
  · rw [filterMap_record?_emission]
    split
    · exact hu.once x.1 x.2 (hstems x hx) ‹_›
    · exact List.nodup_nil
  · rintro x y hx hy ⟨hkey, horigin⟩ i hi hj
    dsimp only at hi hj
    rw [filterMap_record?_emission, List.mem_ite_nil_right] at hi hj
    obtain ⟨hpast, hi⟩ := hi
    obtain ⟨hpast', hj⟩ := hj
    obtain ⟨m, hm, rfl⟩ := List.mem_map.1 hi
    obtain ⟨m', hm', he⟩ := List.mem_map.1 hj
    have hxlen := (hstems x hx).step_le
    have hylen := (hstems y hy).step_le
    have hstep : x.1.step = y.1.step := by omega
    have hend : steps[x.1.step]? ≠ some .descend := by
      rw [List.getElem?_eq_none hpast]
      exact nofun
    have hne := (hstems x hx).origin_ne_none (exists_ident?_of_mem_records hm)
    obtain ⟨i, hi⟩ := Option.ne_none_iff_exists'.1 hne
    have happ := horigin hstep hend i hi
    cases hlx : x.1.value.isList with
    | true =>
      exact happ ((hu.apart _ _ _ _ (hstems x hx) (hstems y hy) hpast hpast' hlx m hm m' hm'
        he.symm).symm.trans hi)
    | false =>
      cases hly : y.1.value.isList with
      | true =>
        exact happ ((hu.apart _ _ _ _ (hstems y hy) (hstems x hx) hpast' hpast hly m' hm' m hm
          he).trans hi)
      | false =>
        -- two messages are told apart by the memory of the queue
        refine hkey ⟨x.1.step, m.ident⟩ (Option.map_eq_some_iff.2 ⟨_, record_eq_ident? hlx hm, rfl⟩)
          (Option.map_eq_some_iff.2 ⟨_, record_eq_ident? hly hm', by rw [hstep, he]⟩)

/-- A path yields no record twice where none is shared by what passes its steps. -/
theorem nodup_records (hu : Unshared steps root supply) :
    ((run steps (start root supply)).1.values.filterMap Value.record?).Nodup := by
  obtain ⟨items, s, ⟨htidy, past, ahead, h⟩, hempty, hv⟩ :=
    (invariant_trail steps root supply).run
      ⟨tidy_start root supply, _, _, trail_start root supply⟩
  have hahead : ahead = [] := List.map_eq_nil_iff.1 (h.queue_eq.trans hempty)
  have hdistinct := htidy.distinct
  have hstems := h.stems
  have hapart := h.apart
  rw [OnceQueue.Distinct, hempty, List.append_nil, ← h.gone_eq, List.pairwise_map] at hdistinct
  rw [hahead, List.append_nil] at hstems hapart
  have hitems : items = past.map Prod.fst := by simpa using h.gone_eq.symm
  rw [hv, List.filterMap_flatMap, hitems, List.flatMap_map]
  exact nodup_emissions hu hstems hdistinct hapart

end Search

/-- A query that starts with `//` finds no record twice, however many ways lead to it, unless a list
that passes its last step has the record twice, or shares it with something else that passes and
was not picked from the same list. -/
theorem Query.nodup_find_descend (rest : List Step) (root : Message) (supply : Nat)
    (hu : Search.Unshared (.descend :: rest) root supply) :
    (((Query.find ⟨[⟨.descend :: rest⟩]⟩ root).run supply).1.values.filterMap
      Value.record?).Nodup := by
  rw [values_find_singleton]
  exact Search.nodup_records hu

namespace Binder

def pageType : MessageType where
  name := "Page"
  fields := [⟨"title", 0, .string, .single⟩]
  index_eq := by decide
  nodup := by decide

def binderType : MessageType where
  name := "Binder"
  fields := [⟨"front", 0, .message "Page", .single⟩, ⟨"back", 1, .message "Page", .single⟩,
    ⟨"pages", 2, .message "Page", .repeated⟩]
  index_eq := by decide
  nodup := by decide

def cover : Message := ⟨⟨0⟩, pageType, [some (.string "cover")]⟩

def first : Message := ⟨⟨1⟩, pageType, [some (.string "first")]⟩

def blank : Message := ⟨⟨2⟩, pageType, [none]⟩

def pages : ListValue := ⟨⟨3⟩, [.message first, .message blank]⟩

def binder : Message :=
  ⟨⟨4⟩, binderType, [some (.message cover), some (.message cover), some (.list pages)]⟩

def titled : List RecordPath.Step := [.descend, .field "*", .key (.property "title")]

def Met : Nat → Value → Option Ident → Prop
  | 0, v, _ => v ∈ [.message binder, .message cover, .list pages, .message first, .message blank]
  | 1, v, _ => v ∈ [.message binder, .message cover, .message first, .message blank]
  | 2, v, origin => v = .message cover ∧ origin = some cover.ident ∨
      v = .list pages ∧ origin = some pages.ident ∨ ∃ s, v = .string s
  | 3, v, origin => v = .message cover ∧ origin = some cover.ident ∨
      ∃ i, v = .list ⟨i, [.message first]⟩ ∧ origin = some pages.ident
  | _, _, _ => False

theorem met_of_expand {p : Pending} {step : RecordPath.Step} {origin : Option Ident} {n : Nat}
    (h : Met p.step p.value origin) (hs : titled[p.step]? = some step) :
    ∀ q ∈ ((p.expand step).run n).1.pushes,
      Met q.step q.value (Search.originOf step origin q) := by
  obtain ⟨k, v, f⟩ := p
  have hcover : Value.message cover ∈
      [.message binder, .message cover, .list pages, .message first, .message blank] :=
    .tail _ (.head _)
  match k with
  | 0 =>
    cases hs
    simp only [Met, List.mem_cons, List.not_mem_nil, or_false] at h
    rcases h with rfl | rfl | rfl | rfl | rfl
    · refine List.forall_mem_cons.2 ⟨List.Mem.head _, List.forall_mem_cons.2 ⟨hcover,
        List.forall_mem_cons.2 ⟨hcover, List.forall_mem_singleton.2 ?_⟩⟩⟩
      exact List.Mem.tail _ (.tail _ (.head _))
    · exact List.forall_mem_singleton.2 (List.Mem.tail _ (.head _))
    · refine List.forall_mem_cons.2 ⟨?_, List.forall_mem_singleton.2 ?_⟩
      · exact List.Mem.tail _ (.tail _ (.tail _ (.head _)))
      · exact List.Mem.tail _ (.tail _ (.tail _ (.tail _ (.head _))))
    · exact List.forall_mem_singleton.2 (List.Mem.tail _ (.tail _ (.head _)))
    · exact List.forall_mem_singleton.2 (List.Mem.tail _ (.tail _ (.tail _ (.head _))))
  | 1 =>
    cases hs
    simp only [Met, List.mem_cons, List.not_mem_nil, or_false] at h
    rcases h with rfl | rfl | rfl | rfl
    · refine List.forall_mem_cons.2 ⟨.inl ⟨rfl, rfl⟩, List.forall_mem_cons.2 ⟨.inl ⟨rfl, rfl⟩,
        List.forall_mem_singleton.2 (.inr (.inl ⟨rfl, rfl⟩))⟩⟩
    all_goals exact List.forall_mem_singleton.2 (.inr (.inr ⟨_, rfl⟩))
  | 2 =>
    cases hs
    rcases h with ⟨rfl, rfl⟩ | ⟨rfl, rfl⟩ | ⟨s, rfl⟩
    · exact List.forall_mem_singleton.2 (.inl ⟨rfl, rfl⟩)
    · exact List.forall_mem_singleton.2 (.inr ⟨⟨n⟩, rfl, rfl⟩)
    · exact List.forall_mem_nil _
  | k + 3 => cases hs

theorem met_of_stems {p : Pending} {origin : Option Ident} (h : Stems titled binder 5 p origin) :
    Met p.step p.value origin := by
  induction h with
  | root => exact List.Mem.head _
  | pick _ hs hnarrow _ hq ih =>
    have hmet := met_of_expand ih hs _ hq
    rwa [Search.originOf, if_pos hnarrow] at hmet
  | read _ hs hnarrow _ hq ih =>
    have hmet := met_of_expand ih hs _ hq
    rwa [Search.originOf, if_neg (Bool.eq_false_iff.1 hnarrow)] at hmet

/-- What passes all steps is the cover, or the list of the pages that have a title. -/
theorem last_of_stems {p : Pending} {origin : Option Ident} (h : Stems titled binder 5 p origin)
    (hp : 3 ≤ p.step) :
    p.value = .message cover ∧ origin = some cover.ident ∨
      ∃ i, p.value = .list ⟨i, [.message first]⟩ ∧ origin = some pages.ident := by
  have hmet := met_of_stems h
  have hstep : p.step = 3 := Nat.le_antisymm h.step_le hp
  rwa [hstep] at hmet

theorem unshared : Search.Unshared titled binder 5 where
  once p origin h hp := by
    rcases last_of_stems h hp with ⟨hv, -⟩ | ⟨i, hv, -⟩ <;> rw [hv]
    · decide
    · exact List.nodup_singleton _
  apart p q origin origin' h h' hp hq hl m hm m' hm' he := by
    rcases last_of_stems h hp with ⟨hv, -⟩ | ⟨i, hv, ho⟩
    · rw [hv] at hl
      cases hl
    rw [hv] at hm
    rcases last_of_stems h' hq with ⟨hv', -⟩ | ⟨j, -, ho'⟩
    · rw [hv'] at hm'
      rw [List.mem_singleton.1 hm, List.mem_singleton.1 hm'] at he
      cases he
    · rw [ho, ho']

end Binder

/-- A cover in two fields and a page that passes a filter are found once each. -/
theorem Query.nodup_find_descend_binder :
    Search.Unshared Binder.titled Binder.binder 5 ∧
      ((Query.find ⟨[⟨Binder.titled⟩]⟩ Binder.binder).run 5).1.values.filterMap Value.record? =
        [Binder.cover.ident, Binder.first.ident] ∧
      (((Query.find ⟨[⟨Binder.titled⟩]⟩ Binder.binder).run 5).1.values.filterMap
        Value.record?).Nodup := by
  have hrun : (Search.within Binder.titled 20 (.start Binder.binder 5)).map
      (·.1.values.filterMap Value.record?) = some [Binder.cover.ident, Binder.first.ident] := by
    decide +kernel
  refine ⟨Binder.unshared, ?_,
    Query.nodup_find_descend [.field "*", .key (.property "title")] Binder.binder 5
      Binder.unshared⟩
  rw [Query.values_find_singleton]
  exact Search.eq_of_map_within hrun

/-- Lists of records are taken apart with no regard to what has been found: the query `//children`
finds the child twice that two records share. -/
theorem Query.find_descend_repeats :
    Grove.workshop.Reached ∧ .message Grove.tree ∈ Grove.workshop.values ∧
      ((Query.find ⟨[⟨[.descend, .field "children"]⟩]⟩ Grove.tree).run 7).1.values.filterMap
        Value.record? =
          [Grove.left.ident, Grove.right.ident, Grove.shared.ident, Grove.shared.ident] ∧
      ¬ (((Query.find ⟨[⟨[.descend, .field "children"]⟩]⟩ Grove.tree).run 7).1.values.filterMap
        Value.record?).Nodup := by
  have hrun : (Search.within [.descend, .field "children"] 16 (.start Grove.tree 7)).map
      (·.1.values.filterMap Value.record?) =
        some [Grove.left.ident, Grove.right.ident, Grove.shared.ident, Grove.shared.ident] := by
    decide +kernel
  rw [Query.values_find_singleton, Search.eq_of_map_within hrun]
  exact ⟨Grove.grove_reached, .head _, rfl, by decide⟩

end RecordPath
