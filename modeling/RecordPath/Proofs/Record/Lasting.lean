import RecordPath.Proofs.Record.Workshop

namespace RecordPath

/-- A property that scalars have, and that lists, maps and messages have that are made of values
with the property. -/
structure Lasting (P : Value → Prop) : Prop where
  scalar : ∀ v, v.ident? = none → P v
  list : ∀ i items, (∀ u ∈ items, P u) → P (.list ⟨i, items⟩)
  map : ∀ kind entries m n k, (MapValue.create kind entries).run n = (.ok m, k) →
    (∀ e ∈ m.entries, P e.2) → P (.map m)
  message : ∀ i (type : MessageType) slots, slots.length = type.fields.length →
    (∀ v, some v ∈ slots → P v) → P (.message ⟨i, type, slots⟩)

namespace Value

def Throughout (P : Value → Prop) (v : Value) : Prop := ∀ u, v.Contains u → P u

variable {P : Value → Prop} {u v : Value}

theorem Throughout.self (h : v.Throughout P) : P v := h v .self

theorem Throughout.part (h : v.Throughout P) (hu : u ∈ v.parts) : u.Throughout P :=
  fun w hw => h w ((Contains.self.part hu).trans hw)

theorem Contains.cases_parts (h : v.Contains u) : u = v ∨ ∃ w ∈ v.parts, w.Contains u := by
  induction h with
  | self => exact .inl rfl
  | part _ hw ih =>
    rcases ih with rfl | ⟨t, ht, hc⟩
    · exact .inr ⟨_, hw, .self⟩
    · exact .inr ⟨t, ht, hc.part hw⟩

theorem throughout_of_parts (hv : P v) (hp : ∀ u ∈ v.parts, u.Throughout P) : v.Throughout P := by
  intro w hw
  rcases hw.cases_parts with rfl | ⟨u, hu, hc⟩
  · exact hv
  · exact hp u hu w hc

theorem throughout_of_scalar (hP : Lasting P) (hv : v.ident? = none) : v.Throughout P := by
  refine throughout_of_parts (hP.scalar v hv) fun u hu => ?_
  cases v with
  | message | list | map => cases hv
  | _ => cases hu

end Value

namespace Workshop

variable {P : Value → Prop} {w w' : Workshop}

structure Throughout (P : Value → Prop) (w : Workshop) : Prop where
  values : ∀ v ∈ w.values, v.Throughout P
  slots : ∀ b ∈ w.builders, ∀ v, some v ∈ b.slots → v.Throughout P
  length : ∀ b ∈ w.builders, b.slots.length = b.type.fields.length

theorem Throughout.addValue {v : Value} (h : w.Throughout P) (hv : v.Throughout P) (n : Nat) :
    ({ w with values := v :: w.values, supply := n } : Workshop).Throughout P where
  values := List.forall_mem_cons.2 ⟨hv, h.values⟩
  slots := h.slots
  length := h.length

theorem Throughout.addBuilder {b : Builder} (h : w.Throughout P)
    (hb : ∀ v, some v ∈ b.slots → v.Throughout P) (hlen : b.slots.length = b.type.fields.length)
    (n : Nat) : ({ w with builders := b :: w.builders, supply := n } : Workshop).Throughout P where
  values := h.values
  slots := List.forall_mem_cons.2 ⟨hb, h.slots⟩
  length := List.forall_mem_cons.2 ⟨hlen, h.length⟩

theorem throughout_accept (hP : Lasting P) {f : Field} {fresh : Ident} {u v : Value}
    (hu : u.Throughout P) (h : f.accept fresh u = .ok v) : v.Throughout P := by
  rcases Field.accept_cases h with rfl | hv | ⟨items, rfl, -, hi⟩
  · exact hu
  · exact Value.throughout_of_scalar hP hv
  · have hitems (i : Value) (hmem : i ∈ items) : i.Throughout P :=
      (hi i hmem).elim hu.part (Value.throughout_of_scalar hP)
    exact Value.throughout_of_parts (hP.list _ _ fun i hmem => (hitems i hmem).self) hitems

theorem throughout_message (hP : Lasting P) (i : Ident) {type : MessageType}
    {slots : List (Option Value)} (hlen : slots.length = type.fields.length)
    (hs : ∀ v, some v ∈ slots → v.Throughout P) :
    (Value.message ⟨i, type, slots⟩).Throughout P := by
  refine Value.throughout_of_parts (hP.message i type slots hlen fun v hv => (hs v hv).self) ?_
  intro u hu
  obtain ⟨o, ho, rfl⟩ := List.mem_filterMap.1 hu
  exact hs u ho

theorem Step.throughout (hP : Lasting P) (hs : Step w w') (h : w.Throughout P) :
    w'.Throughout P := by
  cases hs with
  | scalar v hv => exact h.addValue (Value.throughout_of_scalar hP hv) _
  | part hv hu => exact h.addValue ((h.values _ hv).part hu) _
  | list items hi hl =>
    cases hl
    have hitems (u : Value) (hu : u ∈ items) : u.Throughout P := h.values u (hi u hu)
    exact h.addValue (Value.throughout_of_parts
      (hP.list _ _ fun u hu => (hitems u hu).self) hitems) _
  | map kind entries he hm =>
    rename_i m n
    have hentries (e : MapKey × Value) (hmem : e ∈ m.entries) : e.2.Throughout P :=
      h.values _ (he e ((MapValue.of_create_eq_ok hm).2.2 e hmem))
    refine h.addValue (Value.throughout_of_parts
      (hP.map _ _ m _ _ hm fun e hmem => (hentries e hmem).self) fun u hu => ?_) _
    obtain ⟨e, hmem, rfl⟩ := List.mem_map.1 hu
    exact hentries e hmem
  | empty type hm =>
    cases hm
    exact h.addValue (throughout_message hP _ List.length_replicate (by simp)) _
  | start type =>
    exact h.addBuilder (by simp [Builder.start]) List.length_replicate _
  | @set b c v n name hb hv hc =>
    cases hc
    have hlen : (b.put ⟨w.supply⟩ name v).slots.length = b.type.fields.length :=
      (b.length_put ..).trans (h.length b hb)
    obtain ⟨htype, hs⟩ := b.put_cases ⟨w.supply⟩ name v
    refine h.addBuilder (fun u hu => ?_) (htype ▸ hlen) _
    rcases hs with hs | ⟨f, -, -, t, ht, hs⟩
    · exact h.slots b hb u (hs ▸ hu)
    · rw [hs] at hu
      rcases List.mem_or_eq_of_mem_set hu with hu | hu
      · exact h.slots b hb u hu
      · cases hu
        exact throughout_accept hP (h.values v hv) ht
  | @build b m n hb hm =>
    obtain ⟨rfl, rfl⟩ := Builder.of_build_eq_ok hm
    exact h.addValue (throughout_message hP _ (h.length b hb) (h.slots b hb)) _
  | draw n => exact ⟨h.values, h.slots, h.length⟩

/-- Whatever a program makes has the property, and so has whatever that contains. -/
theorem Reached.throughout (hP : Lasting P) (h : w.Reached) : w.Throughout P := by
  induction h with
  | opened supply => refine ⟨?_, ?_, ?_⟩ <;> simp [Workshop.opened]
  | step _ hs ih => exact hs.throughout hP ih

end Workshop

end RecordPath
