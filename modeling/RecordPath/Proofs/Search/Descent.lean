import RecordPath.Proofs.Search.Course

namespace RecordPath

open Value

namespace Pending

variable {p q : Pending}

theorem exists_descend_of_hop {v : Value} (h : Hop p.value v) (hc : v.isContainer = true) :
    ∃ q ∈ p.descend, q.step = p.step ∧ q.value = v := by
  obtain ⟨step, u, field⟩ := p
  cases h with
  | @field m f v hf hp hv =>
    have hpresent : (f, v) ∈ m.present := List.mem_filterMap.2 ⟨f, hf, by simp [hp, hv]⟩
    refine ⟨⟨step, v, some f⟩, List.mem_cons_of_mem _ ?_, rfl, rfl⟩
    exact List.mem_map.2 ⟨(f, v), List.mem_filter.2 ⟨hpresent, hc⟩, rfl⟩
  | @item l v hv =>
    exact ⟨⟨step, v, field⟩, List.mem_map.2 ⟨v, List.mem_filter.2 ⟨hv, hc⟩, rfl⟩, rfl, rfl⟩
  | @entry m e he =>
    have hv : e.2 ∈ m.entries.map (·.2) := List.mem_map_of_mem he
    exact ⟨⟨step, e.2, field⟩, List.mem_map.2 ⟨e.2, List.mem_filter.2 ⟨hv, hc⟩, rfl⟩, rfl, rfl⟩

theorem exists_descend_of_message {m : Message} (h : p.value = .message m) :
    ∃ q ∈ p.descend, q.step = p.step + 1 ∧ q.value = p.value := by
  unfold descend
  rw [h]
  exact ⟨_, List.mem_cons_self, rfl, rfl⟩

end Pending

namespace Search

/-- What a search for `//` may come across: containers that can be reached, at the step itself, and
records that can be reached, past it. -/
structure Met (root : Message) (p : Pending) : Prop where
  reaches : (Value.message root).Reaches p.value
  isContainer : p.value.isContainer = true
  step_le : p.step ≤ 1
  message : p.step = 1 → ∃ m, p.value = .message m

/-- How many hops from the root an item is; to pass the step counts as one more. -/
noncomputable def level (root : Message) (p : Pending) : Nat :=
  (Value.message root).distance p.value + p.step

variable {root : Message} {p q : Pending}

theorem met_root : Met root ⟨0, .message root, none⟩ where
  reaches := .refl _
  isContainer := rfl
  step_le := Nat.zero_le _
  message h := nomatch h

theorem Met.descend (h : Met root p) (hs : p.step = 0) (hq : q ∈ p.descend) :
    Met root q ∧ level root q ≤ level root p + 1 := by
  unfold level
  rcases Pending.descend_cases hq with ⟨hstep, hv, m, hm⟩ | ⟨hstep, hhop, hc⟩
  · refine ⟨⟨hv ▸ h.reaches, hv ▸ h.isContainer, by omega, fun _ => ⟨m, hv.trans hm⟩⟩, ?_⟩
    rw [hv]
    omega
  · have := distance_hop_le h.reaches hhop
    exact ⟨⟨h.reaches.hop hhop, hc, by omega, fun h1 => by omega⟩, by omega⟩

/-- An item past the root has been passed on by one that is nearer by one. -/
theorem Met.exists_before (h : Met root q) {n : Nat} (hl : level root q = n + 1) :
    ∃ p : Pending, Met root p ∧ p.step = 0 ∧ level root p = n ∧
      ∀ r : Pending, r.step = 0 → r.value = p.value →
        ∃ t ∈ r.descend, t.step = q.step ∧ t.value = q.value := by
  unfold level at hl
  rcases Nat.le_one_iff_eq_zero_or_eq_one.1 h.step_le with hs | hs
  · obtain ⟨v, hv, hd, hhop⟩ := exists_hop_of_distance h.reaches (n := n) (by omega)
    refine ⟨⟨0, v, none⟩, ⟨hv, hhop.isContainer, Nat.zero_le _, nofun⟩, rfl, hd, ?_⟩
    intro r hr hrv
    obtain ⟨t, ht, hts, htv⟩ := Pending.exists_descend_of_hop (p := r) (hrv ▸ hhop) h.isContainer
    exact ⟨t, ht, by omega, htv⟩
  · obtain ⟨m, hm⟩ := h.message hs
    refine ⟨⟨0, q.value, none⟩, ⟨h.reaches, h.isContainer, Nat.zero_le _, nofun⟩, rfl, ?_, ?_⟩
    · change (Value.message root).distance q.value + 0 = n
      omega
    · intro r hr hrv
      obtain ⟨t, ht, hts, htv⟩ := Pending.exists_descend_of_message (hrv.trans hm)
      exact ⟨t, ht, by omega, htv.trans hrv⟩

/-- A search for `//` that has dealt with the items `gone`. What is ahead spans at most two levels,
the nearer one first. -/
structure Descent (root : Message) (gone : List Pending) (s : Search) : Prop where
  tidy : s.Tidy gone
  met : ∀ p ∈ gone ++ s.queue.toList, Met root p
  rooted : ∃ r ∈ gone ++ s.queue.toList, r.step = 0 ∧ r.value = .message root
  closed : ∀ p ∈ gone, p.step = 0 → ∀ q ∈ p.descend,
    ∃ r ∈ gone ++ s.queue.toList, r.step = q.step ∧ r.value = q.value
  sorted : (gone ++ s.queue.toList).Pairwise fun p q => level root p ≤ level root q
  span : ∀ p ∈ s.queue.toList, ∀ q ∈ s.queue.toList, level root q ≤ level root p + 1

variable {gone : List Pending} {s : Search}

theorem descent_start (root : Message) (supply : Nat) : Descent root [] (start root supply) where
  tidy := tidy_start root supply
  met := by simpa [toList_start] using met_root
  rooted := by simp [toList_start]
  closed := by simp
  sorted := by simp [toList_start]
  span := by simp [toList_start]

/-- Whatever is no further from the root than all that is ahead has been met. -/
theorem Descent.exists_of_le (h : Descent root gone s) {n : Nat}
    (hn : ∀ p ∈ s.queue.toList, n ≤ level root p) (hq : Met root q) (hl : level root q ≤ n) :
    ∃ r ∈ gone ++ s.queue.toList, r.step = q.step ∧ r.value = q.value := by
  -- by induction on the level: what passes an item on is nearer, so it is no longer ahead
  induction hk : level root q generalizing q with
  | zero =>
    obtain ⟨r, hr, hs, hv⟩ := h.rooted
    have hd : (Value.message root).distance q.value = 0 := by unfold level at hk; omega
    have hstep : q.step = 0 := by unfold level at hk; omega
    exact ⟨r, hr, by omega, hv.trans (eq_of_distance_eq_zero hq.reaches hd).symm⟩
  | succ k ih =>
    obtain ⟨p, hp, hps, hpl, hpass⟩ := hq.exists_before hk
    obtain ⟨r, hr, hrs, hrv⟩ := ih hp (by omega) hpl
    have hrl : level root r = k := by
      rw [← hpl]
      simp only [level, hrs, hrv]
    have hgone : r ∈ gone := by
      rcases List.mem_append.1 hr with hr | hr
      · exact hr
      · have := hn r hr
        omega
    obtain ⟨t, ht, hts, htv⟩ := hpass r (by omega) hrv
    obtain ⟨u, hu, hus, huv⟩ := h.closed r hgone (by omega) t ht
    exact ⟨u, hu, hus.trans hts, huv.trans htv⟩

/-- The first item ahead is no further from the root than the others, which are at most one further
than it. -/
theorem Descent.level_of_pop? (h : Descent root gone s) {queue : OnceQueue Pending Visit}
    (hpop : s.queue.pop? = some (p, queue)) :
    (∀ q ∈ gone, level root q ≤ level root p) ∧
      ∀ q ∈ queue.toList, level root p ≤ level root q ∧ level root q ≤ level root p + 1 := by
  have hsorted := h.sorted
  have hspan := h.span
  rw [OnceQueue.toList_of_pop? hpop] at hsorted hspan
  obtain ⟨-, hahead, hcross⟩ := List.pairwise_append.1 hsorted
  refine ⟨fun q hq => hcross q hq p List.mem_cons_self, fun q hq => ⟨?_, ?_⟩⟩
  · exact (List.pairwise_cons.1 hahead).1 q hq
  · exact hspan p List.mem_cons_self q (List.mem_cons_of_mem p hq)

/-- What a descent brings up for the first time is one further from the root than what it starts
from: anything nearer has been met before. -/
theorem Descent.level_of_mem_firsts (h : Descent root gone s) {queue : OnceQueue Pending Visit}
    (hpop : s.queue.pop? = some (p, queue)) (hp : p.step = 0) :
    ∀ q ∈ firsts Keyed.key? (queue.keys (gone ++ [p])) p.descend,
      level root q = level root p + 1 := by
  intro q hq
  have hitems := append_of_pop? gone hpop
  obtain ⟨hmet, hle⟩ :=
    (h.met p (by simp [hitems])).descend hp ((firsts_sublist _ _).subset hq)
  by_contra hne
  have hahead : ∀ r ∈ s.queue.toList, level root p ≤ level root r := by
    rw [OnceQueue.toList_of_pop? hpop]
    exact List.forall_mem_cons.2 ⟨le_rfl, fun r hr => ((h.level_of_pop? hpop).2 r hr).1⟩
  obtain ⟨r, hr, hrs, hrv⟩ := h.exists_of_le hahead hmet (by omega)
  obtain ⟨i, hi⟩ := ident?_of_isContainer hmet.isContainer
  have hkq : Keyed.key? q = some (⟨q.step, i⟩ : Visit) := Option.map_eq_some_iff.2 ⟨i, hi, rfl⟩
  have hkr : Keyed.key? r = some (⟨q.step, i⟩ : Visit) :=
    Option.map_eq_some_iff.2 ⟨i, hrv ▸ hi, by rw [hrs]⟩
  exact not_mem_of_mem_firsts hq hkq (List.mem_filterMap.2 ⟨r, hitems ▸ hr, hkr⟩)

/-- After a descent from the first item ahead, whatever is added lies one further than that item. -/
theorem Descent.toList_pushAll (h : Descent root gone s) {queue : OnceQueue Pending Visit}
    (hpop : s.queue.pop? = some (p, queue)) (hp : p.step = 0) :
    ∃ new, (queue.pushAll p.descend).toList = queue.toList ++ new ∧
      ∀ q ∈ new, level root q = level root p + 1 :=
  ⟨_, (h.tidy.pop hpop s.supply).remembers.toList_pushAll p.descend,
    h.level_of_mem_firsts hpop hp⟩

theorem Descent.sorted_pushAll (h : Descent root gone s) {queue : OnceQueue Pending Visit}
    (hpop : s.queue.pop? = some (p, queue)) (hp : p.step = 0) :
    ((gone ++ [p]) ++ (queue.pushAll p.descend).toList).Pairwise fun q t =>
      level root q ≤ level root t := by
  obtain ⟨new, hlist, hnew⟩ := h.toList_pushAll hpop hp
  obtain ⟨hbehind, hahead⟩ := h.level_of_pop? hpop
  have hsorted := h.sorted
  rw [append_of_pop? gone hpop] at hsorted
  rw [hlist, ← List.append_assoc]
  refine List.pairwise_append.2 ⟨hsorted, List.pairwise_of_forall_mem_list ?_, ?_⟩
  · intro q hq t ht
    rw [hnew q hq, hnew t ht]
  · intro q hq t ht
    rw [hnew t ht]
    rcases List.mem_append.1 hq with hq | hq
    · rcases List.mem_append.1 hq with hq | hq
      · exact Nat.le_succ_of_le (hbehind q hq)
      · rw [List.mem_singleton.1 hq]
        exact Nat.le_succ _
    · exact (hahead q hq).2

theorem Descent.span_pushAll (h : Descent root gone s) {queue : OnceQueue Pending Visit}
    (hpop : s.queue.pop? = some (p, queue)) (hp : p.step = 0) :
    ∀ q ∈ (queue.pushAll p.descend).toList, ∀ t ∈ (queue.pushAll p.descend).toList,
      level root t ≤ level root q + 1 := by
  obtain ⟨new, hlist, hnew⟩ := h.toList_pushAll hpop hp
  obtain ⟨-, hahead⟩ := h.level_of_pop? hpop
  have hbounds : ∀ q ∈ (queue.pushAll p.descend).toList,
      level root p ≤ level root q ∧ level root q ≤ level root p + 1 := by
    intro q hq
    rw [hlist] at hq
    rcases List.mem_append.1 hq with hq | hq
    · exact hahead q hq
    · have := hnew q hq
      omega
  intro q hq t ht
  have := hbounds q hq
  have := hbounds t ht
  omega

section

variable {known : Value → Prop} {supply : Nat} (hc : Coherent known supply)
  (hr : known (.message root))

include hc hr

/-- What is met is told apart by the keys. -/
theorem Met.eq_of_key (hp : Met root p) (hq : Met root q) {k : Visit}
    (hkp : Keyed.key? p = some k) (hkq : Keyed.key? q = some k) :
    p.step = q.step ∧ p.value = q.value := by
  obtain ⟨i, hi, rfl⟩ := Option.map_eq_some_iff.1 hkp
  obtain ⟨j, hj, he⟩ := Option.map_eq_some_iff.1 hkq
  obtain ⟨hs, rfl⟩ := Visit.mk.inj he
  refine ⟨hs.symm, hc.same _ _ ?_ ?_ (hi.trans hj.symm) (by simp [hi])⟩
  · exact hc.known_of_reaches hr hp.reaches
  · exact hc.known_of_reaches hr hq.reaches

/-- A turn of a search for `//` keeps it breadth first. -/
theorem invariant_descent : Invariant [.descend] (Descent root) where
  pass {gone s p queue} h hpop hs := by
    have hitems := append_of_pop? gone hpop
    have hmet := h.met
    have hrooted := h.rooted
    have hclosed := h.closed
    have hsorted := h.sorted
    rw [hitems] at hmet hrooted hclosed hsorted
    have hlevel := (h.level_of_pop? hpop).2
    have hstep : p.step ≠ 0 := by
      intro h0
      rw [h0] at hs
      cases hs
    refine ⟨h.tidy.pop hpop _, hmet, hrooted, ?_, hsorted, ?_⟩
    · intro q hq hq0
      rcases List.mem_append.1 hq with hq | hq
      · exact hclosed q hq hq0
      · rw [List.mem_singleton.1 hq] at hq0
        exact absurd hq0 hstep
    · intro q hq r hr
      have := hlevel q hq
      have := hlevel r hr
      omega
  expand {gone s p queue step} h hpop hs := by
    have hitems := append_of_pop? gone hpop
    have hmet := h.met
    have hrooted := h.rooted
    have hclosed := h.closed
    rw [hitems] at hmet hrooted hclosed
    have hp0 : p.step = 0 := by
      have := (List.getElem?_eq_some_iff.1 hs).1
      simpa using this
    obtain rfl : Step.descend = step := by
      rw [hp0] at hs
      exact Option.some.inj hs
    have htidy := h.tidy.pop hpop s.supply
    obtain ⟨hold, hsplit⟩ := mem_pushAll (gone ++ [p]) queue p.descend
    have hnext (q : Pending) (hq : q ∈ p.descend) : Met root q :=
      ((hmet p (by simp)).descend hp0 hq).1
    have hmet : ∀ q ∈ (gone ++ [p]) ++ (queue.pushAll p.descend).toList, Met root q :=
      fun q hq => (hsplit q hq).elim (hmet q) (hnext q)
    refine ⟨htidy.pushAll p.descend s.supply, hmet, ?_, ?_, h.sorted_pushAll hpop hp0,
      h.span_pushAll hpop hp0⟩
    · obtain ⟨r, hr, he⟩ := hrooted
      exact ⟨r, hold r hr, he⟩
    · intro q hq hq0 t ht
      rcases List.mem_append.1 hq with hq | hq
      · obtain ⟨r, hr, he⟩ := hclosed q hq hq0 t ht
        exact ⟨r, hold r hr, he⟩
      · -- what is refused has been met under the same key
        obtain rfl := List.mem_singleton.1 hq
        obtain ⟨b, hb, rfl | ⟨k, hkb, hkt⟩⟩ := (htidy.remembers.pushAll q.descend).2 t ht
        · exact ⟨b, hb, rfl, rfl⟩
        · exact ⟨b, hb, Met.eq_of_key hc hr (hmet b hb) (hnext t ht) hkb hkt⟩

end

theorem emission_of_met (hp : Met root p) :
    emission [.descend] p = if p.step = 1 then [p.value] else [] := by
  unfold emission
  rcases Nat.le_one_iff_eq_zero_or_eq_one.1 hp.step_le with hs | hs
  · simp [hs]
  · obtain ⟨m, hm⟩ := hp.message hs
    simp [hs, hm, contribution]

/-- A search for `//` yields the values of the items that pass the step. -/
theorem flatMap_emission_of_met {items : List Pending} (h : ∀ p ∈ items, Met root p) :
    items.flatMap (emission [.descend]) = (items.filter (·.step = 1)).map (·.value) := by
  induction items with
  | nil => rfl
  | cons p rest ih =>
    obtain ⟨hp, hrest⟩ := List.forall_mem_cons.1 h
    rw [List.flatMap_cons, emission_of_met hp, ih hrest, List.filter_cons]
    by_cases hs : p.step = 1 <;> simp [hs]

end Search

open Search in
/-- The query `//` finds the records that can be reached from the root through present fields, list
items and map entries, each of them once, and in the order of their distance from the root. -/
theorem Query.find_descend {w : Workshop} {root : Message} (hw : w.Reached)
    (hr : .message root ∈ w.values) :
    let found := ((Query.find ⟨[⟨[.descend]⟩]⟩ root).run w.supply).1.values
    (∀ v, v ∈ found ↔ (Value.message root).Reaches v ∧ ∃ m, v = .message m) ∧
      (found.map Value.ident?).Nodup ∧
      found.Pairwise fun u v =>
        (Value.message root).distance u ≤ (Value.message root).distance v := by
  obtain ⟨known, hk⟩ := hw.holds
  obtain ⟨items, s, hs, hempty, hv⟩ :=
    (invariant_descent hk.coherent (hk.values _ hr)).run (descent_start root w.supply)
  have hmet := hs.met
  have hsorted := hs.sorted
  have hdistinct := hs.tidy.distinct
  rw [OnceQueue.Distinct] at hdistinct
  rw [List.nil_append, hempty, List.append_nil] at hmet hsorted hdistinct
  dsimp only
  rw [values_find_singleton, hv, flatMap_emission_of_met hmet]
  refine ⟨fun v => ?_, ?_, ?_⟩
  · constructor
    · intro h
      obtain ⟨p, hp, rfl⟩ := List.mem_map.1 h
      obtain ⟨hp, hp1⟩ := List.mem_filter.1 hp
      exact ⟨(hmet p hp).reaches, (hmet p hp).message (by simpa using hp1)⟩
    · rintro ⟨hreach, m, rfl⟩
      -- nothing is ahead any more, so whatever can be met has been met
      have hm : Met root ⟨1, .message m, none⟩ := ⟨hreach, rfl, le_rfl, fun _ => ⟨m, rfl⟩⟩
      obtain ⟨p, hp, hps, hpv⟩ := hs.exists_of_le (by simp [hempty]) hm le_rfl
      rw [List.nil_append, hempty, List.append_nil] at hp
      exact List.mem_map.2 ⟨p, List.mem_filter.2 ⟨hp, by simp [hps]⟩, hpv⟩
  · rw [List.map_map]
    refine List.pairwise_map.2 (List.Pairwise.imp_of_mem ?_ (hdistinct.filter _))
    intro p q hp hq hapart he
    obtain ⟨hp, hp1⟩ := List.mem_filter.1 hp
    obtain ⟨-, hq1⟩ := List.mem_filter.1 hq
    obtain ⟨i, hi⟩ := ident?_of_isContainer (hmet p hp).isContainer
    have hstep : p.step = q.step := by simp_all
    refine hapart ⟨p.step, i⟩ (Option.map_eq_some_iff.2 ⟨i, hi, rfl⟩) ?_
    exact Option.map_eq_some_iff.2 ⟨i, he.symm.trans hi, by rw [hstep]⟩
  · refine List.pairwise_map.2 (List.Pairwise.imp_of_mem ?_ (hsorted.filter _))
    intro p q hp hq hle
    have hp1 := (List.mem_filter.1 hp).2
    have hq1 := (List.mem_filter.1 hq).2
    simp only [level, decide_eq_true_eq] at hle hp1 hq1
    omega

namespace Grove

def nodeType : MessageType where
  name := "Node"
  fields := [⟨"children", 0, .message "Node", .repeated⟩]
  index_eq := by decide
  nodup := by decide

def shared : Message := ⟨⟨0⟩, nodeType, [none]⟩

def left : Message := ⟨⟨2⟩, nodeType, [some (.list ⟨⟨1⟩, [.message shared]⟩)]⟩

def right : Message := ⟨⟨4⟩, nodeType, [some (.list ⟨⟨3⟩, [.message shared]⟩)]⟩

def tree : Message := ⟨⟨6⟩, nodeType, [some (.list ⟨⟨5⟩, [.message left, .message right]⟩)]⟩

def workshop : Workshop where
  values :=
    [.message tree, .list ⟨⟨5⟩, [.message left, .message right]⟩, .message right,
      .list ⟨⟨3⟩, [.message shared]⟩, .message left, .list ⟨⟨1⟩, [.message shared]⟩,
      .message shared]
  builders :=
    [⟨nodeType, tree.slots, none⟩, ⟨nodeType, right.slots, none⟩, ⟨nodeType, left.slots, none⟩,
      ⟨nodeType, [none], none⟩]
  supply := 7

theorem grove_reached : workshop.Reached := by
  have h0 := (Workshop.Reached.opened 0).step (.empty nodeType rfl)
  have h1 := h0.step (.start nodeType)
  have h2 := h1.step (.list [.message shared] (List.forall_mem_singleton.2 (.head _)) rfl)
  have h3 := h2.step (.set "children" (.head _) (.head _) rfl)
  have h4 := h3.step (.build (.head _) rfl)
  have h5 := h4.step (.list [.message shared]
    (List.forall_mem_singleton.2 (.tail _ (.tail _ (.head _)))) rfl)
  have h6 := h5.step (.set "children" (.tail _ (.head _)) (.head _) rfl)
  have h7 := h6.step (.build (.head _) rfl)
  have h8 := h7.step (.list [.message left, .message right] (List.forall_mem_cons.2
    ⟨.tail _ (.tail _ (.head _)), List.forall_mem_singleton.2 (.head _)⟩) rfl)
  have h9 := h8.step (.set "children" (.tail _ (.tail _ (.head _))) (.head _) rfl)
  exact h9.step (.build (.head _) rfl)

end Grove

/-- A record that two others share is found once, and after them. -/
theorem Query.find_descend_grove :
    Grove.workshop.Reached ∧ .message Grove.tree ∈ Grove.workshop.values ∧
      let found := ((Query.find ⟨[⟨[.descend]⟩]⟩ Grove.tree).run 7).1.values
      .message Grove.shared ∈ found ∧ (found.map Value.ident?).Nodup ∧
        found.Pairwise fun u v =>
          (Value.message Grove.tree).distance u ≤ (Value.message Grove.tree).distance v := by
  have hr : .message Grove.tree ∈ Grove.workshop.values := .head _
  obtain ⟨hiff, hnodup, hsorted⟩ := Query.find_descend Grove.grove_reached hr
  have h0 := Value.Reaches.refl (.message Grove.tree)
  have h1 : Value.Reaches (.message Grove.tree) _ := h0.hop (.field (.head _) rfl rfl)
  have h2 : Value.Reaches (.message Grove.tree) (.message Grove.left) := h1.hop (.item (.head _))
  have h3 : Value.Reaches (.message Grove.tree) _ := h2.hop (.field (.head _) rfl rfl)
  have h4 : Value.Reaches (.message Grove.tree) (.message Grove.shared) := h3.hop (.item (.head _))
  exact ⟨Grove.grove_reached, hr, (hiff _).2 ⟨h4, _, rfl⟩, hnodup, hsorted⟩

end RecordPath
