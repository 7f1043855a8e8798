import Mathlib.Data.List.Pairwise
import RecordPath.Proofs.Record.Reachability
import RecordPath.Search.Cost

namespace RecordPath

open Value

theorem Value.mem_parts_message {m : Message} {v : Value} :
    v ∈ (message m).parts ↔ some v ∈ m.slots := by
  simp [parts]

theorem MessageOf.mem_parts_of_stored? {m : Message} {f : Field} {v : Value}
    (h : m.stored? f = some v) : v ∈ (Value.message m).parts :=
  Value.mem_parts_message.2 (List.mem_of_getElem? (slot_of_stored? h))

theorem Field.ident?_default {f : Field} {v : Value} (h : f.default? = some v) :
    v.ident? = none := by
  unfold default? at h
  split at h
  · revert h
    cases f.kind <;> intro h <;> cases h <;> rfl
  · cases h

/-- A field reads as what it stores, as an empty collection under the identity `fresh`, or as a
scalar. -/
theorem MessageOf.getAs_cases {m : Message} {f : Field} {fresh : Ident} {v : Value}
    (h : m.getAs f fresh = some v) :
    m.stored? f = some v ∨
      m.isVacant f = true ∧ (v = .list ⟨fresh, []⟩ ∨ ∃ kind, v = .map ⟨fresh, kind, []⟩) ∨
      v.ident? = none := by
  unfold getAs at h
  split at h
  · rename_i u hu
    cases h
    exact .inl hu
  · rename_i hs
    split at h <;> rename_i hc
    · cases h
      exact .inr (.inl ⟨by simp [isVacant, hs, hc], .inl rfl⟩)
    · cases h
      exact .inr (.inl ⟨by simp [isVacant, hs, hc], .inr ⟨_, rfl⟩⟩)
    · exact .inr (.inr (Field.ident?_default h))

theorem Field.renameOrdinal_cases (f : Field) (v : Value) :
    f.renameOrdinal v = v ∨ (f.renameOrdinal v).ident? = none := by
  unfold renameOrdinal
  split
  · split
    · exact .inr rfl
    · exact .inl rfl
  · exact .inl rfl

theorem supply_le_readFields (next : Nat) (reads : List (Message × Field)) (supply : Nat) :
    supply ≤ ((readFields next reads).run supply).2 := by
  induction reads generalizing supply with
  | nil => exact Nat.le_refl _
  | cons read rest ih =>
    obtain ⟨m, f⟩ := read
    cases hv : m.getAs f ⟨supply⟩ with
    | none =>
      rw [readFields_cons_of_none hv]
      exact Nat.le_trans (Nat.le_add_right ..) (ih _)
    | some v =>
      rw [readFields_cons_of_some hv]
      exact Nat.le_trans (Nat.le_add_right_of_le (Nat.le_add_right ..)) (ih _)

theorem Pending.supply_le_expand (p : Pending) (step : RecordPath.Step) (supply : Nat) :
    supply ≤ ((p.expand step).run supply).2 := by
  cases step with
  | root | self | descend => exact Nat.le_refl _
  | field name => exact supply_le_readFields ..
  | key expr => exact Nat.le_add_right ..

/-- What a key step makes of a value: the value itself, a scalar, what the value is made of, or, if
it filters, a list of some of its items under the identity `fresh`. -/
inductive Value.Picked (filters : Prop) (fresh : Ident) : Value → Value → Prop
  | self {v : Value} : Picked filters fresh v v
  | scalar {u v : Value} (h : v.ident? = none) : Picked filters fresh u v
  | item {l : ListValue} {v : Value} (h : v ∈ l.items) : Picked filters fresh (.list l) v
  | entry {m : MapValue} {e : MapKey × Value} (h : e ∈ m.entries) :
      Picked filters fresh (.map m) e.2
  | filtered {l : ListValue} {items : List Value} (hf : filters) (h : items.Sublist l.items) :
      Picked filters fresh (.list l) (.list ⟨fresh, items⟩)

namespace Pending

variable {p q : Pending}

/-- A key step passes on one value at most. -/
theorem applyKey_cases (p : Pending) (expr : Expr) (fresh : Ident) :
    (p.applyKey expr fresh).pushes = [] ∨
      ∃ v field, (p.applyKey expr fresh).pushes = [⟨p.step + 1, v, field⟩] ∧
        Picked (p.filters expr = true) fresh p.value v := by
  obtain ⟨step, v, field⟩ := p
  unfold applyKey filters
  dsimp only
  split
  · rename_i l
    unfold keyList
    dsimp only
    split
    · rename_i htype
      unfold filterList
      dsimp only
      split
      · exact .inl rfl
      · rename_i hkept
        refine .inr ⟨_, field, rfl, .filtered ?_ (Context.sublist_kept _ expr l.items)⟩
        rw [htype]
        simpa using hkept
    · split
      · split
        · exact .inr ⟨_, field, rfl, .item (List.mem_of_getElem? ‹_›)⟩
        · exact .inl rfl
      · exact .inl rfl
    · exact .inl rfl
    · exact .inl rfl
  · rename_i m
    unfold keyMap
    dsimp only
    split
    · split
      · rename_i v hv
        obtain ⟨e, he, rfl⟩ := Option.map_eq_some_iff.1 hv
        exact .inr ⟨_, field, rfl, .entry (List.mem_of_find?_eq_some he)⟩
      · exact .inl rfl
    · exact .inl rfl
  · unfold keyBytes
    dsimp only
    split
    · split
      · exact .inr ⟨_, none, rfl, .scalar rfl⟩
      · exact .inl rfl
    · exact .inl rfl
  · unfold keySingle
    dsimp only
    split
    · exact .inr ⟨v, field, rfl, .self⟩
    all_goals exact .inl rfl

/-- All that a descent passes on: the record itself to the next step, and the containers one hop
away to the same step. -/
theorem descend_cases (h : q ∈ p.descend) :
    (q.step = p.step + 1 ∧ q.value = p.value ∧ ∃ m, p.value = .message m) ∨
      (q.step = p.step ∧ Hop p.value q.value ∧ q.value.isContainer = true) := by
  unfold descend at h
  split at h
  · rename_i m hm
    rcases List.mem_cons.1 h with rfl | h
    · exact .inl ⟨rfl, rfl, m, hm⟩
    · obtain ⟨x, hx, rfl⟩ := List.mem_map.1 h
      obtain ⟨hx, hc⟩ := List.mem_filter.1 hx
      obtain ⟨f, hf, hx⟩ := List.mem_filterMap.1 hx
      split at hx
      · rename_i hp
        obtain ⟨v, hv, rfl⟩ := Option.map_eq_some_iff.1 hx
        rw [hm]
        exact .inr ⟨rfl, .field hf hp hv, hc⟩
      · cases hx
  · rename_i l hl
    obtain ⟨v, hv, rfl⟩ := List.mem_map.1 h
    obtain ⟨hv, hc⟩ := List.mem_filter.1 hv
    rw [hl]
    exact .inr ⟨rfl, .item hv, hc⟩
  · rename_i m hm
    obtain ⟨v, hv, rfl⟩ := List.mem_map.1 h
    obtain ⟨hv, hc⟩ := List.mem_filter.1 hv
    obtain ⟨e, he, rfl⟩ := List.mem_map.1 hv
    rw [hm]
    exact .inr ⟨rfl, .entry he, hc⟩
  · cases h

end Pending

/-- Values along with whatever a search reads from them. The elements are the known values that a
list or map may hold. -/
structure Sources (known element : Value → Prop) : Prop where
  known_of_element : ∀ v, element v → known v
  scalar : ∀ v, v.ident? = none → element v
  field : ∀ (m : Message) f v, known (.message m) → f ∈ m.type.fields → m.stored? f = some v →
    known v
  item : ∀ l, known (.list l) → ∀ v ∈ l.items, element v
  entry : ∀ m, known (.map m) → ∀ e ∈ m.entries, element e.2

/-- A known value, or a list or map of elements whose identity has been drawn from `m` on and
before `n`. -/
inductive Value.Gathered (known element : Value → Prop) (m n : Nat) : Value → Prop
  | known {v : Value} (h : known v) : Gathered known element m n v
  | list {i : Nat} {items : List Value} (hm : m ≤ i) (hn : i < n) (he : ∀ u ∈ items, element u) :
      Gathered known element m n (.list ⟨⟨i⟩, items⟩)
  | map {i : Nat} {kind : KeyKind} {entries : List (MapKey × Value)} (hm : m ≤ i) (hn : i < n)
      (he : ∀ e ∈ entries, element e.2) : Gathered known element m n (.map ⟨⟨i⟩, kind, entries⟩)

section Gathering

variable {known element : Value → Prop} {m m' n n' i supply : Nat} {v : Value} {p : Pending}
  {r : Message} {f : Field}

namespace Value.Gathered

theorem mono (h : v.Gathered known element m n) (hm : m' ≤ m) (hn : n ≤ n') :
    v.Gathered known element m' n' := by
  cases h with
  | known h => exact .known h
  | list hlow hhigh he => exact .list (Nat.le_trans hm hlow) (Nat.lt_of_lt_of_le hhigh hn) he
  | map hlow hhigh he => exact .map (Nat.le_trans hm hlow) (Nat.lt_of_lt_of_le hhigh hn) he

theorem known_message (h : (Value.message r).Gathered known element m n) : known (.message r) := by
  cases h with
  | known h => exact h

theorem item {l : ListValue} (h : (Value.list l).Gathered known element m n)
    (hs : Sources known element) : ∀ u ∈ l.items, element u := by
  cases h with
  | known h => exact hs.item l h
  | list _ _ he => exact he

theorem entry {k : MapValue} (h : (Value.map k).Gathered known element m n)
    (hs : Sources known element) : ∀ e ∈ k.entries, element e.2 := by
  cases h with
  | known h => exact hs.entry k h
  | map _ _ he => exact he

/-- What is not known has an identity drawn since. -/
theorem known_or_ident? (h : v.Gathered known element m n) :
    known v ∨ ∃ i, v.ident? = some ⟨i⟩ ∧ m ≤ i ∧ i < n := by
  cases h with
  | known h => exact .inl h
  | list hm hn _ => exact .inr ⟨_, rfl, hm, hn⟩
  | map hm hn _ => exact .inr ⟨_, rfl, hm, hn⟩

end Value.Gathered

namespace Sources

theorem gathered_scalar (hs : Sources known element) (hv : v.ident? = none) :
    v.Gathered known element m n := .known (hs.known_of_element v (hs.scalar v hv))

theorem element_renameOrdinal (hs : Sources known element) (hv : element v) :
    element (f.renameOrdinal v) := by
  rcases f.renameOrdinal_cases v with he | hn
  · rw [he]
    exact hv
  · exact hs.scalar _ hn

theorem gathered_nameOrdinals (hs : Sources known element) (hv : v.Gathered known element m n)
    (hm : m ≤ i) (hn : f.renames v = true → i < n) :
    (f.nameOrdinals ⟨i⟩ v).Gathered known element m n := by
  unfold Field.nameOrdinals
  split
  · rename_i henum
    split
    · refine .list hm (hn (by simp [Field.renames, henum])) fun u hu => ?_
      obtain ⟨t, ht, rfl⟩ := List.mem_map.1 hu
      exact hs.element_renameOrdinal (hv.item hs t ht)
    · refine .map hm (hn (by simp [Field.renames, henum])) fun e he => ?_
      obtain ⟨d, hd, rfl⟩ := List.mem_map.1 he
      exact hs.element_renameOrdinal (hv.entry hs d hd)
    · rcases f.renameOrdinal_cases v with he | hnone
      · rw [he]
        exact hv
      · exact hs.gathered_scalar hnone
  · exact hv

/-- What a field reads as has been drawn for, if it is not known. -/
theorem gathered_read (hs : Sources known element) (hr : known (.message r))
    (hf : f ∈ r.type.fields) (hv : r.getAs f ⟨supply⟩ = some v) :
    let drawn := supply + (r.isVacant f).toNat
    (f.nameOrdinals ⟨drawn⟩ v).Gathered known element supply (drawn + (f.renames v).toNat) := by
  refine hs.gathered_nameOrdinals ?_ (Nat.le_add_right ..) fun hrenames => ?_
  · rcases MessageOf.getAs_cases hv with hu | ⟨hvacant, rfl | ⟨kind, rfl⟩⟩ | hn
    · exact .known (hs.field r f v hr hf hu)
    · refine .list (Nat.le_refl supply) ?_ (List.forall_mem_nil _)
      rw [hvacant]
      exact Nat.lt_add_right _ (Nat.lt_succ_self supply)
    · refine .map (Nat.le_refl supply) ?_ (List.forall_mem_nil _)
      rw [hvacant]
      exact Nat.lt_add_right _ (Nat.lt_succ_self supply)
    · exact hs.gathered_scalar hn
  · rw [hrenames]
    exact Nat.lt_succ_self _

theorem gathered_readFields (hs : Sources known element) (next : Nat)
    {reads : List (Message × Field)}
    (hr : ∀ r ∈ reads, known (.message r.1) ∧ r.2 ∈ r.1.type.fields) (supply : Nat) :
    ∀ q ∈ ((readFields next reads).run supply).1,
      q.value.Gathered known element supply ((readFields next reads).run supply).2 := by
  induction reads generalizing supply with
  | nil => exact List.forall_mem_nil _
  | cons read rest ih =>
    obtain ⟨r, f⟩ := read
    obtain ⟨⟨hm, hf⟩, hrest⟩ := List.forall_mem_cons.1 hr
    cases hv : r.getAs f ⟨supply⟩ with
    | none =>
      rw [readFields_cons_of_none hv]
      exact fun q hq => (ih hrest _ q hq).mono (Nat.le_add_right ..) (Nat.le_refl _)
    | some v =>
      rw [readFields_cons_of_some hv]
      refine List.forall_mem_cons.2 ⟨?_, fun q hq => ?_⟩
      · exact (hs.gathered_read hm hf hv).mono (Nat.le_refl _) (supply_le_readFields ..)
      · exact (ih hrest _ q hq).mono (Nat.le_add_right_of_le (Nat.le_add_right ..)) (Nat.le_refl _)

theorem known_records (hs : Sources known element) (hv : v.Gathered known element m n) :
    ∀ r ∈ v.records, known (.message r) := by
  intro r hr
  unfold records at hr
  split at hr
  · rw [List.mem_singleton.1 hr]
    exact hv.known_message
  · obtain ⟨u, hu, hr⟩ := List.mem_filterMap.1 hr
    cases u <;> cases hr
    exact hs.known_of_element _ (hv.item hs _ hu)
  · cases hr

theorem known_reads (hs : Sources known element) (hv : v.Gathered known element m n)
    (name : String) :
    ∀ r ∈ v.records.flatMap fun m => (m.type.fieldsNamed name).map fun f => (m, f),
      known (.message r.1) ∧ r.2 ∈ r.1.type.fields := by
  intro read hread
  obtain ⟨r, hr, hread⟩ := List.mem_flatMap.1 hread
  obtain ⟨f, hf, rfl⟩ := List.mem_map.1 hread
  exact ⟨hs.known_records hv r hr, (r.type.fieldsNamed_sublist name).subset hf⟩

theorem known_of_hop (hs : Sources known element) {u : Value}
    (hu : u.Gathered known element m n) (h : Hop u v) : known v := by
  cases h with
  | field hf _ hv => exact hs.field _ _ v hu.known_message hf hv
  | item hv => exact hs.known_of_element v (hu.item hs v hv)
  | entry he => exact hs.known_of_element _ (hu.entry hs _ he)

theorem gathered_picked (hs : Sources known element) {u : Value} {filters : Prop}
    (hu : u.Gathered known element m i) (hm : m ≤ i) (hin : i ≤ n) (hn : filters → i < n)
    (h : Picked filters ⟨i⟩ u v) : v.Gathered known element m n := by
  cases h with
  | self => exact hu.mono (Nat.le_refl m) hin
  | scalar h => exact hs.gathered_scalar h
  | item h => exact .known (hs.known_of_element v (hu.item hs v h))
  | entry h => exact .known (hs.known_of_element _ (hu.entry hs _ h))
  | filtered hf h => exact .list hm (hn hf) fun t ht => hu.item hs t (h.subset ht)

/-- Whatever a step passes on is known, or a list or map that was gathered from what is known. -/
theorem gathered_expand (hs : Sources known element) (hp : p.value.Gathered known element m supply)
    (hm : m ≤ supply) (step : Step) :
    ∀ q ∈ ((p.expand step).run supply).1.pushes,
      q.value.Gathered known element m ((p.expand step).run supply).2 := by
  cases step with
  | root | self => exact List.forall_mem_singleton.2 hp
  | field name =>
    intro q hq
    have hreads := hs.known_reads hp name
    exact (hs.gathered_readFields (p.step + 1) hreads supply q hq).mono hm (Nat.le_refl _)
  | key expr =>
    change ∀ q ∈ (p.applyKey expr ⟨supply⟩).pushes,
      q.value.Gathered known element m (supply + (p.filters expr).toNat)
    rcases p.applyKey_cases expr ⟨supply⟩ with he | ⟨v, field, he, hpick⟩ <;> rw [he]
    · exact List.forall_mem_nil _
    · refine List.forall_mem_singleton.2
        (hs.gathered_picked hp hm (Nat.le_add_right ..) (fun hf => ?_) hpick)
      rw [hf]
      exact Nat.lt_succ_self supply
  | descend =>
    intro q hq
    rcases Pending.descend_cases hq with ⟨-, hv, -⟩ | ⟨-, hhop, -⟩
    · rw [hv]
      exact hp
    · exact .known (hs.known_of_hop hp hhop)

end Sources

def SharesKnown (known : Value → Prop) (p q : Pending) : Prop :=
  ∀ i, p.value.ident? = some i → q.value.ident? = some i → known p.value

theorem Sources.pairwise_readFields (hs : Sources known element) (next : Nat)
    {reads : List (Message × Field)}
    (hr : ∀ r ∈ reads, known (.message r.1) ∧ r.2 ∈ r.1.type.fields)
    (hb : ∀ v i, known v → v.ident? = some i → i.number < supply) :
    ((readFields next reads).run supply).1.Pairwise (SharesKnown known) := by
  induction reads generalizing supply with
  | nil => exact .nil
  | cons read rest ih =>
    obtain ⟨r, f⟩ := read
    obtain ⟨⟨hm, hf⟩, hrest⟩ := List.forall_mem_cons.1 hr
    have hb' (n : Nat) (v : Value) (i : Ident) (hv : known v) (hi : v.ident? = some i) :
        i.number < supply + n := Nat.lt_add_right n (hb v i hv hi)
    cases hv : r.getAs f ⟨supply⟩ with
    | none =>
      rw [readFields_cons_of_none hv]
      exact ih hrest (hb' _)
    | some v =>
      rw [readFields_cons_of_some hv]
      refine List.pairwise_cons.2 ⟨fun q hq i hi hqi => ?_, ih hrest fun v i hv hi => ?_⟩
      -- what the first read has drawn comes before all that the others draw
      · refine (hs.gathered_read hm hf hv).known_or_ident?.resolve_right ?_
        rintro ⟨j, hj, hlow, hhigh⟩
        obtain rfl : i = ⟨j⟩ := Option.some.inj (hi.symm.trans hj)
        rcases (hs.gathered_readFields next hrest _ q hq).known_or_ident? with hk | ⟨k, hk, hle, -⟩
        · exact absurd (hb _ _ hk hqi) (Nat.not_lt.2 hlow)
        · cases hqi.symm.trans hk
          exact absurd hhigh (Nat.not_lt.2 hle)
      · exact Nat.lt_add_right _ (hb' _ v i hv hi)

/-- No two of the lists and maps that a step gathers have one identity. -/
theorem Sources.pairwise_expand (hs : Sources known element)
    (hb : ∀ v i, known v → v.ident? = some i → i.number < supply) (hk : known p.value)
    (step : Step) : ((p.expand step).run supply).1.pushes.Pairwise (SharesKnown known) := by
  have hp : p.value.Gathered known element supply supply := .known hk
  cases step with
  | root | self => exact List.pairwise_singleton ..
  | field name =>
    exact hs.pairwise_readFields (p.step + 1) (hs.known_reads hp name) hb
  | key expr =>
    change (p.applyKey expr ⟨supply⟩).pushes.Pairwise (SharesKnown known)
    rcases p.applyKey_cases expr ⟨supply⟩ with he | ⟨v, field, he, -⟩ <;> rw [he]
    · exact .nil
    · exact List.pairwise_singleton ..
  | descend =>
    refine List.pairwise_of_forall_mem_list fun q hq _ _ _ _ _ => ?_
    rcases Pending.descend_cases hq with ⟨-, hv, -⟩ | ⟨-, hhop, -⟩
    · rw [hv]
      exact hk
    · exact hs.known_of_hop hp hhop

end Gathering

namespace Coherent

variable {known : Value → Prop} {supply n : Nat} {p : Pending} {items : List Pending}

theorem sources (h : Coherent known supply) : Sources known known where
  known_of_element _ := id
  scalar := h.scalar
  field _ _ v hm _ hv := h.part _ hm v (MessageOf.mem_parts_of_stored? hv)
  item _ hl := h.part _ hl
  entry _ hm e he := h.part _ hm e.2 (List.mem_map_of_mem he)

theorem known_of_gathered (h : Coherent known supply) {m : Nat} {v : Value}
    (hg : v.Gathered known known m n) : ∀ u ∈ v.parts, known u := by
  cases hg with
  | known hk => exact h.part v hk
  | list _ _ he => exact he
  | map _ _ he =>
    intro u hu
    obtain ⟨e, hmem, rfl⟩ := List.mem_map.1 hu
    exact he e hmem

/-- What has an identity in common with a known value is that value. -/
theorem eq_of_gathered (h : Coherent known supply) {u v : Value} (hu : known u)
    (hg : v.Gathered known known supply n) (he : u.ident? = v.ident?) (hne : u.ident? ≠ none) :
    u = v := by
  refine h.same u v hu (hg.known_or_ident?.resolve_right ?_) he hne
  rintro ⟨i, hi, hlow, -⟩
  exact absurd (h.below u ⟨i⟩ hu (he.trans hi)) (Nat.not_lt.2 hlow)

theorem eq_of_pairwise (h : Coherent known supply)
    (hg : ∀ q ∈ items, q.value.Gathered known known supply n)
    (hd : items.Pairwise (SharesKnown known)) :
    ∀ p ∈ items, ∀ q ∈ items, p.value.ident? = q.value.ident? → p.value.ident? ≠ none →
      p.value = q.value := by
  refine List.Pairwise.forall_of_forall_of_flip (fun _ _ _ _ => rfl)
    (hd.imp_of_mem fun {p q} _ hq hpq he hne => ?_) (hd.imp_of_mem fun {p q} _ hq hpq he hne => ?_)
  · obtain ⟨i, hi⟩ := Option.ne_none_iff_exists'.1 hne
    exact h.eq_of_gathered (hpq i hi (he.symm.trans hi)) (hg q hq) he hne
  · obtain ⟨i, hi⟩ := Option.ne_none_iff_exists'.1 hne
    exact (h.eq_of_gathered (hpq i (he.symm.trans hi) hi) (hg q hq) he.symm (he ▸ hne)).symm

/-- Lists and maps with identities of their own may join the values that they are gathered from. -/
theorem gather (h : Coherent known supply) (hn : supply ≤ n)
    (hg : ∀ q ∈ items, q.value.Gathered known known supply n)
    (hd : items.Pairwise (SharesKnown known)) :
    Coherent (fun v => known v ∨ ∃ q ∈ items, q.value = v) n := by
  constructor
  · exact fun v hv => .inl (h.scalar v hv)
  · rintro v (hv | ⟨q, hq, rfl⟩) u hu
    · exact .inl (h.part v hv u hu)
    · exact .inl (h.known_of_gathered (hg q hq) u hu)
  · rintro u v (hu | ⟨p, hp, rfl⟩) (hv | ⟨q, hq, rfl⟩) he hne
    · exact h.same u v hu hv he hne
    · exact h.eq_of_gathered hu (hg q hq) he hne
    · exact (h.eq_of_gathered hv (hg p hp) he.symm (he ▸ hne)).symm
    · exact h.eq_of_pairwise hg hd p hp q hq he hne
  · rintro v i (hv | ⟨q, hq, rfl⟩) hi
    · exact Nat.lt_of_lt_of_le (h.below v i hv hi) hn
    · rcases (hg q hq).known_or_ident? with hk | ⟨j, hj, -, hj'⟩
      · exact Nat.lt_of_lt_of_le (h.below _ i hk hi) hn
      · cases hi.symm.trans hj
        exact hj'
  · rintro m (hm | ⟨q, hq, he⟩)
    · exact h.accepted m hm
    · have hgq := hg q hq
      rw [he] at hgq
      exact h.accepted m hgq.known_message

/-- What a step passes on may join the values that it starts from. -/
theorem expand (h : Coherent known supply) (hp : known p.value) (step : Step) :
    Coherent (fun v => known v ∨ ∃ q ∈ ((p.expand step).run supply).1.pushes, q.value = v)
      ((p.expand step).run supply).2 :=
  h.gather (p.supply_le_expand step supply)
    (h.sources.gathered_expand (.known hp) (Nat.le_refl supply) step)
    (h.sources.pairwise_expand h.below hp step)

end Coherent

end RecordPath
