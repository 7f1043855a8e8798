import RecordPath.Proofs.Record.Fields
import RecordPath.Record.Builder

namespace RecordPath

def Value.parts : Value → List Value
  | message m => m.slots.filterMap id
  | list l => l.items
  | map m => m.entries.map (·.2)
  | _ => []

inductive Value.Contains (u : Value) : Value → Prop
  | self : Contains u u
  | part {v w : Value} (h : Contains u v) (hw : w ∈ v.parts) : Contains u w

theorem Value.Contains.trans {u v w : Value} (h : u.Contains v) (hw : v.Contains w) :
    u.Contains w := by
  induction hw with
  | self => exact h
  | part _ hpart ih => exact ih.part hpart

/-- The values and the messages in the making that a program has, and the first number that is
still free. Nothing is lost: a program may use again whatever it once had. -/
structure Workshop where
  values : List Value
  builders : List Builder
  supply : Nat

namespace Workshop

def opened (supply : Nat) : Workshop := ⟨[], [], supply⟩

inductive Step : Workshop → Workshop → Prop
  | scalar {w : Workshop} (v : Value) (hv : v.ident? = none) :
      Step w { w with values := v :: w.values }
  /-- Reading an item, an entry or a field. -/
  | part {w : Workshop} {v u : Value} (hv : v ∈ w.values) (hu : u ∈ v.parts) :
      Step w { w with values := u :: w.values }
  | list {w : Workshop} {v : Value} {n : Nat} (items : List Value)
      (hi : ∀ u ∈ items, u ∈ w.values) (hl : (Value.newList items).run w.supply = (v, n)) :
      Step w { w with values := v :: w.values, supply := n }
  | map {w : Workshop} {m : MapValue} {n : Nat} (kind : KeyKind) (entries : List (MapKey × Value))
      (he : ∀ e ∈ entries, e.2 ∈ w.values)
      (hm : (MapValue.create kind entries).run w.supply = (.ok m, n)) :
      Step w { w with values := .map m :: w.values, supply := n }
  | empty {w : Workshop} {m : Message} {n : Nat} (type : MessageType)
      (hm : (MessageOf.empty type).run w.supply = (m, n)) :
      Step w { w with values := .message m :: w.values, supply := n }
  | start {w : Workshop} (type : MessageType) :
      Step w { w with builders := .start type :: w.builders }
  | set {w : Workshop} {b c : Builder} {v : Value} {n : Nat} (name : String)
      (hb : b ∈ w.builders) (hv : v ∈ w.values) (hc : (b.set name v).run w.supply = (c, n)) :
      Step w { w with builders := c :: w.builders, supply := n }
  | build {w : Workshop} {b : Builder} {m : Message} {n : Nat} (hb : b ∈ w.builders)
      (hm : b.build.run w.supply = (.ok m, n)) :
      Step w { w with values := .message m :: w.values, supply := n }
  /-- Identities may be drawn for something else in between. -/
  | draw {w : Workshop} (n : Nat) : Step w { w with supply := w.supply + n }

/-- A workshop as some run of a program leaves it. -/
inductive Reached : Workshop → Prop
  | opened (supply : Nat) : Reached (opened supply)
  | step {w w' : Workshop} (h : Reached w) (hs : Step w w') : Reached w'

end Workshop

def SlotsAccepted (type : MessageType) (slots : List (Option Value)) : Prop :=
  ∀ f ∈ type.fields, ∀ v, slots[f.index]? = some (some v) →
    ∃ fresh u, f.accept fresh u = .ok v

/-- Values that are told apart by their identities, all of which lie below `supply`, along with
all that they are made of. -/
structure Coherent (known : Value → Prop) (supply : Nat) : Prop where
  scalar : ∀ v, v.ident? = none → known v
  part : ∀ v, known v → ∀ u ∈ v.parts, known u
  same : ∀ u v, known u → known v → u.ident? = v.ident? → u.ident? ≠ none → u = v
  below : ∀ v i, known v → v.ident? = some i → i.number < supply
  accepted : ∀ m, known (.message m) → SlotsAccepted m.type m.slots

namespace Coherent

variable {known : Value → Prop} {supply n : Nat} {v : Value}

theorem nothing (supply : Nat) : Coherent (fun v => v.ident? = none) supply where
  scalar v hv := hv
  part v hv u hu := by cases v <;> simp_all [Value.ident?, Value.parts]
  same u v hu hv h hne := absurd hu hne
  below v i hv hi := by simp [hv] at hi
  accepted m hm := by simp [Value.ident?] at hm

theorem mono (h : Coherent known supply) (hn : supply ≤ n) : Coherent known n where
  scalar := h.scalar
  part := h.part
  same := h.same
  below v i hv hi := Nat.lt_of_lt_of_le (h.below v i hv hi) hn
  accepted := h.accepted

/-- A value made of known ones may join them under an identity that is still free. -/
theorem insert (h : Coherent known supply) {number : Nat} (hp : ∀ u ∈ v.parts, known u)
    (hv : v.ident? = some ⟨number⟩) (hlow : supply ≤ number) (hhigh : number < n)
    (ha : ∀ m, v = .message m → SlotsAccepted m.type m.slots) :
    Coherent (fun u => known u ∨ u = v) n := by
  -- no known value has the new identity, as all of theirs lie below `supply`
  have hfree (u : Value) (hu : known u) : u.ident? ≠ v.ident? := by
    intro he
    have := h.below u ⟨number⟩ hu (he.trans hv)
    exact absurd this (Nat.not_lt.2 hlow)
  constructor
  · intro u hu
    exact .inl (h.scalar u hu)
  · rintro u (hu | rfl) t ht
    · exact .inl (h.part u hu t ht)
    · exact .inl (hp t ht)
  · rintro u t (hu | rfl) (ht | rfl) he hne
    · exact h.same u t hu ht he hne
    · exact absurd he (hfree u hu)
    · exact absurd he.symm (hfree t ht)
    · rfl
  · rintro u i (hu | rfl) hi
    · have := h.below u i hu hi
      omega
    · rw [hv] at hi
      cases hi
      exact hhigh
  · rintro m (hm | hm)
    · exact h.accepted m hm
    · exact ha m hm.symm

theorem known_of_contains (h : Coherent known supply) {u : Value} (hu : known u)
    (hc : u.Contains v) : known v := by
  induction hc with
  | self => exact hu
  | part _ hw ih => exact h.part _ ih _ hw

/-- Some of the values, along with all that these are made of, lie below any number that their own
identities lie below. -/
theorem restrict (h : Coherent known supply) {held : Value → Prop} (hsub : ∀ v, held v → known v)
    (hscalar : ∀ v, v.ident? = none → held v) (hpart : ∀ v, held v → ∀ u ∈ v.parts, held u)
    (hbelow : ∀ v i, held v → v.ident? = some i → i.number < n) : Coherent held n where
  scalar := hscalar
  part := hpart
  same u v hu hv := h.same u v (hsub u hu) (hsub v hv)
  below := hbelow
  accepted m hm := h.accepted m (hsub _ hm)

end Coherent

/-- The second values are the first ones, and besides them only such as have identities from
`supply` on. -/
structure GrowsTo (supply : Nat) (known known' : Value → Prop) : Prop where
  keeps : ∀ v, known v → known' v
  fresh : ∀ v, known' v → known v ∨ ∃ i, v.ident? = some i ∧ supply ≤ i.number

theorem GrowsTo.refl (supply : Nat) (known : Value → Prop) : GrowsTo supply known known :=
  ⟨fun _ => id, fun _ => .inl⟩

theorem GrowsTo.insert {supply : Nat} {known : Value → Prop} {v : Value}
    (hv : v.ident? = some ⟨supply⟩) : GrowsTo supply known fun u => known u ∨ u = v where
  keeps _ := .inl
  fresh := by
    rintro u (hu | rfl)
    · exact .inl hu
    · exact .inr ⟨⟨supply⟩, hv, Nat.le_refl _⟩

theorem Field.acceptElement_cases {f : Field} {u v : Value} (h : f.acceptElement u = .ok v) :
    v = u ∨ v.ident? = none := by
  unfold acceptElement at h
  dsimp only at h
  split at h
  · rename_i w hw
    cases h
    split at hw
    -- the integers that change sign type, and the names of ordinals
    case h_5 | h_7 | h_11 =>
      obtain ⟨n, -, rfl⟩ := Option.map_eq_some_iff.1 hw
      exact .inr rfl
    case h_12 =>
      split at hw <;> cases hw
      exact .inl rfl
    case h_9 =>
      cases hw
      exact .inr rfl
    case h_13 => cases hw
    all_goals
      cases hw
      exact .inl rfl
  · cases h

theorem MapOf.insert_values {α : Type} {key : MapKey} {value : α} {es : List (MapKey × α)} :
    ∀ e ∈ MapOf.insert key value es, e = (key, value) ∨ e ∈ es := by
  intro e he
  induction es with
  | nil => exact .inl (List.mem_singleton.1 he)
  | cons d rest ih =>
    unfold insert at he
    split at he
    · simpa using he
    · rcases List.mem_cons.1 he with rfl | he
      · exact .inl rfl
      · exact .inr (List.mem_cons_of_mem d he)
    · rcases List.mem_cons.1 he with rfl | he
      · exact .inr List.mem_cons_self
      · exact (ih he).imp_right (List.mem_cons_of_mem d)

theorem MapOf.collect_values {α : Type} {kind : KeyKind} {sorted rest es : List (MapKey × α)}
    (h : MapOf.collect kind sorted rest = .ok es) : ∀ e ∈ es, e ∈ sorted ∨ e ∈ rest := by
  induction rest generalizing sorted with
  | nil =>
    cases h
    exact fun e he => .inl he
  | cons d rest ih =>
    obtain ⟨key, value⟩ := d
    unfold collect at h
    split at h
    · intro e he
      rcases ih h e he with he | he
      · rcases insert_values e he with rfl | he
        · exact .inr List.mem_cons_self
        · exact .inl he
      · exact .inr (List.mem_cons_of_mem _ he)
    · cases h

theorem MapValue.of_create_eq_ok {kind : KeyKind} {entries : List (MapKey × Value)} {m : MapValue}
    {n k : Nat} (h : (create kind entries).run n = (.ok m, k)) :
    m.ident = ⟨n⟩ ∧ k = n + 1 ∧ ∀ e ∈ m.entries, e ∈ entries := by
  unfold create at h
  split at h
  · rename_i sorted hcol
    cases h
    exact ⟨rfl, rfl, fun e he => (MapOf.collect_values hcol e he).elim (by simp) id⟩
  · cases h

theorem of_bind_eq_ok {ε α β : Type} {x : Except ε α} {f : α → Except ε β} {b : β}
    (h : x >>= f = .ok b) : ∃ a, x = .ok a ∧ f a = .ok b := by
  cases x with
  | error e => cases h
  | ok a => exact ⟨a, rfl, h⟩

theorem exists_of_mem_mapM {α β ε : Type} {f : α → Except ε β} {xs : List α} {ys : List β}
    (h : xs.mapM f = .ok ys) : ∀ y ∈ ys, ∃ x ∈ xs, f x = .ok y := by
  induction xs generalizing ys with
  | nil =>
    cases h
    simp
  | cons x xs ih =>
    rw [List.mapM_cons] at h
    obtain ⟨y, hx, h⟩ := of_bind_eq_ok h
    obtain ⟨zs, hr, h⟩ := of_bind_eq_ok h
    cases h
    intro z hz
    rcases List.mem_cons.1 hz with rfl | hz
    · exact ⟨x, List.mem_cons_self, hx⟩
    · obtain ⟨u, hu, hf⟩ := ih hr z hz
      exact ⟨u, List.mem_cons_of_mem x hu, hf⟩

/-- A field stores the value that it is given, or a scalar, or a list made anew. -/
theorem Field.accept_cases {f : Field} {fresh : Ident} {u v : Value}
    (h : f.accept fresh u = .ok v) :
    v = u ∨ v.ident? = none ∨
      ∃ items, v = .list ⟨fresh, items⟩ ∧ f.remakes u = true ∧
        ∀ i ∈ items, i ∈ u.parts ∨ i.ident? = none := by
  unfold accept at h
  split at h
  · exact (acceptElement_cases h).imp_right .inl
  · rename_i hc
    split at h
    · rename_i l
      obtain ⟨items, hm, h⟩ := of_bind_eq_ok h
      change Except.ok (if Value.sameItems items l.items then .list l else .list ⟨fresh, items⟩) =
        Except.ok v at h
      cases h
      split
      · exact .inl rfl
      · rename_i hsame
        refine .inr (.inr ⟨items, rfl, ?_, fun i hi => ?_⟩)
        · simp only [remakes, hc, hm, hsame, Bool.not_false]
        obtain ⟨u, hu, ha⟩ := exists_of_mem_mapM hm i hi
        exact (acceptElement_cases ha).imp_left fun he => by rw [he]; exact hu
    · cases h
  · split at h
    · rename_i m
      split at h
      · obtain ⟨items, -, h⟩ := of_bind_eq_ok h
        cases h
        exact .inl rfl
      · cases h
    · cases h

namespace Builder

/-- Setting a field fills at most the slot of that field, with what the field accepted. -/
theorem put_cases (b : Builder) (fresh : Ident) (name : String) (v : Value) :
    (b.put fresh name v).type = b.type ∧
      ((b.put fresh name v).slots = b.slots ∨
        ∃ f, b.type.field? name = some f ∧ b.remakes name v = f.remakes v ∧
          ∃ u, f.accept fresh v = .ok u ∧
            (b.put fresh name v).slots = b.slots.set f.index (some u)) := by
  unfold put
  split
  · exact ⟨rfl, .inl rfl⟩
  · rename_i hfault
    split
    · exact ⟨rfl, .inl rfl⟩
    · rename_i f hf
      split
      · rename_i u hu
        have hremakes : b.remakes name v = f.remakes v := by simp [remakes, hfault, hf]
        exact ⟨rfl, .inr ⟨f, hf, hremakes, u, hu, rfl⟩⟩
      · exact ⟨rfl, .inl rfl⟩

theorem put_of_accept {b : Builder} {fresh : Ident} {name : String} {v w : Value}
    {f : Field} (hfault : b.fault = none) (hf : b.type.field? name = some f)
    (hw : f.accept fresh v = .ok w) :
    b.put fresh name v = { b with slots := b.slots.set f.index (some w) } := by
  unfold put
  rw [hfault, hf]
  simp only [hw]

theorem length_put (b : Builder) (fresh : Ident) (name : String) (v : Value) :
    (b.put fresh name v).slots.length = b.slots.length := by
  obtain ⟨-, hs | ⟨f, -, -, w, -, hs⟩⟩ := b.put_cases fresh name v
  · rw [hs]
  · rw [hs, List.length_set]

theorem slotsAccepted_put {b : Builder} (h : SlotsAccepted b.type b.slots) (fresh : Ident)
    (name : String) (v : Value) :
    SlotsAccepted (b.put fresh name v).type (b.put fresh name v).slots := by
  obtain ⟨ht, hs | ⟨f, hf, -, u, hu, hs⟩⟩ := b.put_cases fresh name v
  -- a fault leaves the slots alone
  · rw [ht, hs]
    exact h
  · rw [ht, hs]
    intro g hg t hslot
    by_cases he : f.index = g.index
    · obtain rfl := MessageType.index_injective (MessageType.mem_of_field? hf).1 hg he
      rw [List.getElem?_set_self'] at hslot
      obtain ⟨_, -, hslot⟩ := Option.map_eq_some_iff.1 hslot
      cases hslot
      exact ⟨fresh, v, hu⟩
    · rw [List.getElem?_set_ne he] at hslot
      exact h g hg t hslot

end Builder

theorem slotsAccepted_replicate (type : MessageType) (n : Nat) :
    SlotsAccepted type (List.replicate n none) := by
  intro f _ v h
  simp [List.getElem?_replicate] at h

namespace Workshop

structure Holds (w : Workshop) (known : Value → Prop) : Prop where
  coherent : Coherent known w.supply
  values : ∀ v ∈ w.values, known v
  slots : ∀ b ∈ w.builders, ∀ v, some v ∈ b.slots → known v
  accepted : ∀ b ∈ w.builders, SlotsAccepted b.type b.slots

namespace Holds

variable {w : Workshop} {known : Value → Prop} {v : Value} {n : Nat}

theorem addValue (h : w.Holds known) (hv : known v) :
    ({ w with values := v :: w.values } : Workshop).Holds known where
  coherent := h.coherent
  values := List.forall_mem_cons.2 ⟨hv, h.values⟩
  slots := h.slots
  accepted := h.accepted

theorem addContainer (h : w.Holds known) (hp : ∀ u ∈ v.parts, known u)
    (hi : v.ident? = some ⟨w.supply⟩) (ha : ∀ m, v = .message m → SlotsAccepted m.type m.slots) :
    ({ w with values := v :: w.values, supply := w.supply + 1 } : Workshop).Holds
      fun u => known u ∨ u = v where
  coherent := h.coherent.insert hp hi (Nat.le_refl _) (Nat.lt_succ_self _) ha
  values := List.forall_mem_cons.2 ⟨.inr rfl, fun u hu => .inl (h.values u hu)⟩
  slots b hb u hu := .inl (h.slots b hb u hu)
  accepted := h.accepted

theorem draw (h : w.Holds known) (n : Nat) :
    ({ w with supply := w.supply + n } : Workshop).Holds known where
  coherent := h.coherent.mono (Nat.le_add_right ..)
  values := h.values
  slots := h.slots
  accepted := h.accepted

end Holds

theorem Holds.addBuilder {w : Workshop} {known : Value → Prop} {b : Builder} (h : w.Holds known)
    (hs : ∀ v, some v ∈ b.slots → known v) (ha : SlotsAccepted b.type b.slots) :
    ({ w with builders := b :: w.builders } : Workshop).Holds known where
  coherent := h.coherent
  values := h.values
  slots := List.forall_mem_cons.2 ⟨hs, h.slots⟩
  accepted := List.forall_mem_cons.2 ⟨ha, h.accepted⟩

/-- A list made anew for a field joins the values before the builder stores it. -/
theorem Holds.setField {w : Workshop} {known : Value → Prop} {b : Builder} {v : Value}
    (h : w.Holds known) (name : String) (hb : b ∈ w.builders) (hv : v ∈ w.values) :
    ∃ known', GrowsTo w.supply known known' ∧ ({ w with
      builders := b.put ⟨w.supply⟩ name v :: w.builders
      supply := w.supply + (b.remakes name v).toNat } : Workshop).Holds known' := by
  have ha := Builder.slotsAccepted_put (h.accepted b hb) ⟨w.supply⟩ name v
  have hdraw := h.draw (b.remakes name v).toNat
  obtain ⟨-, hs | ⟨f, -, hremakes, u, hu, hs⟩⟩ := b.put_cases ⟨w.supply⟩ name v
  · refine ⟨known, .refl .., hdraw.addBuilder ?_ ha⟩
    rw [hs]
    exact h.slots b hb
  · have hset (known' : Value → Prop) (hold : ∀ t, known t → known' t) (hnew : known' u) :
        ∀ t, some t ∈ (b.put ⟨w.supply⟩ name v).slots → known' t := by
      intro t ht
      rw [hs] at ht
      rcases List.mem_or_eq_of_mem_set ht with ht | ht
      · exact hold t (h.slots b hb t ht)
      · cases ht
        exact hnew
    rcases Field.accept_cases hu with rfl | hn | ⟨items, rfl, hnew, hi⟩
    · exact ⟨known, .refl .., hdraw.addBuilder (hset known (fun _ => id) (h.values _ hv)) ha⟩
    · exact ⟨known, .refl ..,
        hdraw.addBuilder (hset known (fun _ => id) (h.coherent.scalar u hn)) ha⟩
    · have hparts : ∀ i ∈ items, known i := fun i hmem =>
        (hi i hmem).elim (h.coherent.part v (h.values v hv) i) (h.coherent.scalar i)
      have hc := h.addContainer (v := .list ⟨⟨w.supply⟩, items⟩) hparts rfl (by simp)
      rw [hremakes, hnew]
      exact ⟨_, .insert rfl, {
        coherent := hc.coherent
        values := fun t ht => .inl (h.values t ht)
        slots := List.forall_mem_cons.2 ⟨hset _ (fun _ => .inl) (.inr rfl), hc.slots⟩
        accepted := List.forall_mem_cons.2 ⟨ha, hc.accepted⟩ }⟩

/-- A step adds at most one container, under an identity that was still free. -/
theorem Step.holds {w w' : Workshop} {known : Value → Prop} (hs : Step w w')
    (h : w.Holds known) : ∃ known', GrowsTo w.supply known known' ∧ w'.Holds known' := by
  cases hs with
  | scalar v hv => exact ⟨known, .refl .., h.addValue (h.coherent.scalar v hv)⟩
  | part hv hu => exact ⟨known, .refl .., h.addValue (h.coherent.part _ (h.values _ hv) _ hu)⟩
  | list items hi hl =>
    cases hl
    exact ⟨_, .insert rfl, h.addContainer (fun u hu => h.values u (hi u hu)) rfl (by simp)⟩
  | map kind entries he hm =>
    rename_i m n
    obtain ⟨hi, rfl, hsub⟩ := MapValue.of_create_eq_ok hm
    have hident : (Value.map m).ident? = some ⟨w.supply⟩ := congrArg some hi
    have hparts : ∀ u ∈ (Value.map m).parts, known u := by
      intro u hu
      obtain ⟨e, hmem, rfl⟩ := List.mem_map.1 hu
      exact h.values _ (he e (hsub e hmem))
    exact ⟨_, .insert hident, h.addContainer hparts hident (by simp)⟩
  | empty type hm =>
    cases hm
    refine ⟨_, .insert rfl, h.addContainer (fun u hu => ?_) rfl ?_⟩
    · simp [Value.parts] at hu
    · rintro _ ⟨⟩
      exact slotsAccepted_replicate type _
  | start type =>
    refine ⟨known, .refl .., h.addBuilder (fun v hv => ?_) (slotsAccepted_replicate type _)⟩
    simp [Builder.start] at hv
  | set name hb hv hc =>
    cases hc
    exact h.setField name hb hv
  | build hb hm =>
    rename_i b m n
    obtain ⟨rfl, rfl⟩ := Builder.of_build_eq_ok hm
    refine ⟨_, .insert rfl, h.addContainer (fun u hu => ?_) rfl ?_⟩
    · obtain ⟨o, ho, rfl⟩ := List.mem_filterMap.1 hu
      exact h.slots b hb u ho
    · rintro _ ⟨⟩
      exact h.accepted b hb
  | draw n => exact ⟨known, .refl .., h.draw n⟩

theorem Step.supply_le {w w' : Workshop} (h : Step w w') : w.supply ≤ w'.supply := by
  cases h with
  | scalar | part | start => exact Nat.le_refl w.supply
  | list _ _ hl =>
    cases hl
    exact Nat.le_succ w.supply
  | map _ _ _ hm =>
    obtain ⟨-, rfl, -⟩ := MapValue.of_create_eq_ok hm
    exact Nat.le_succ w.supply
  | empty _ hm =>
    cases hm
    exact Nat.le_succ w.supply
  | set _ _ _ hc =>
    cases hc
    exact Nat.le_add_right ..
  | build _ hm =>
    obtain ⟨-, rfl⟩ := Builder.of_build_eq_ok hm
    exact Nat.le_succ w.supply
  | draw n => exact Nat.le_add_right ..

/-- What a program has made is told apart by identities below the next free one. -/
theorem Reached.holds {w : Workshop} (h : Reached w) : ∃ known, w.Holds known := by
  induction h with
  | opened supply =>
    refine ⟨_, .nothing supply, ?_, ?_, ?_⟩
    all_goals
      intro a ha
      cases ha
  | step _ hs ih =>
    obtain ⟨known, hk⟩ := ih
    obtain ⟨known', -, hk'⟩ := hs.holds hk
    exact ⟨known', hk'⟩

end Workshop

end RecordPath
