import RecordPath.Proofs.Record.Conformance
import RecordPath.Proofs.Search.Descent
import RecordPath.Proofs.Search.Origin

namespace RecordPath

def Value.IsSingle (v : Value) : Prop := v.ident? = none ∨ ∃ m, v = .message m

inductive Value.Flat : Value → Prop
  | single {v : Value} (h : v.IsSingle) : Flat v
  | list {l : ListValue} (h : ∀ u ∈ l.items, u.IsSingle) : Flat (.list l)
  | map {m : MapValue} (h : ∀ e ∈ m.entries, e.2.IsSingle) : Flat (.map m)

theorem FieldKind.Fits.isSingle {k : FieldKind} {v : Value} (h : k.Fits v) : v.IsSingle := by
  cases k with
  | message name =>
    obtain ⟨m, rfl, -⟩ := h
    exact .inr ⟨m, rfl⟩
  | _ =>
    obtain ⟨x, rfl⟩ := h
    exact .inl rfl

namespace Field

variable {f : Field} {fresh : Ident} {u v : Value}

theorem isSingle_of_acceptElement (h : f.acceptElement u = .ok v) : u.IsSingle := by
  cases u with
  | message m => exact .inr ⟨m, rfl⟩
  | list | map =>
    unfold acceptElement at h
    cases hk : f.kind <;> rw [hk] at h <;> cases h
  | _ => exact .inl rfl

/-- A field stores no list or map directly in another. -/
theorem flat_of_accept (h : f.accept fresh u = .ok v) : v.Flat := by
  cases hc : f.cardinality with
  | single =>
    have hfits := conforms_of_accept_single hc h
    rw [Conforms, hc] at hfits
    exact .single hfits.isSingle
  | repeated =>
    have hfits := conforms_of_accept_repeated hc h
    rw [Conforms, hc] at hfits
    obtain ⟨l, rfl, hitems⟩ := hfits
    exact .list fun i hi => (hitems i hi).isSingle
  | map kind =>
    obtain ⟨m, rfl, -, -, hentries⟩ := accept_map hc h
    refine .map fun e he => ?_
    obtain ⟨t, ht⟩ := hentries e he
    exact isSingle_of_acceptElement ht

/-- A list or map that has something in it makes its field present, as does a message. -/
theorem isPresent_of_mem_parts (f : Field) (hu : u ∈ v.parts) : f.isPresent v = true := by
  cases v with
  | message => rfl
  | list l =>
    have hne : l.items ≠ [] := List.ne_nil_of_mem hu
    simpa [isPresent] using hne
  | map m =>
    have hne : m.entries ≠ [] := by
      rintro he
      simp [Value.parts, he] at hu
    simpa [isPresent] using hne
  | _ => cases hu

end Field

namespace Value

variable {root : Message} {v : Value}

/-- A scalar, or a message that can be reached from the root. -/
inductive InTree (root : Message) : Value → Prop
  | scalar {v : Value} (h : v.ident? = none) : InTree root v
  | message {m : Message} (h : (Value.message root).Reaches (.message m)) :
      InTree root (.message m)

inductive OfTree (root : Message) : Value → Prop
  | element {v : Value} (h : v.InTree root) : OfTree root v
  | list {l : ListValue} (h : ∀ u ∈ l.items, u.InTree root) : OfTree root (.list l)
  | map {m : MapValue} (h : ∀ e ∈ m.entries, e.2.InTree root) : OfTree root (.map m)

theorem IsSingle.inTree (h : v.IsSingle) (hr : v.ident? ≠ none → (message root).Reaches v) :
    v.InTree root := by
  rcases h with hn | ⟨m, rfl⟩
  · exact .scalar hn
  · exact .message (hr nofun)

theorem InTree.isList (h : v.InTree root) : v.isList = false := by
  cases h with
  | message => rfl
  | scalar hn =>
    cases v with
    | list => cases hn
    | _ => rfl

end Value

section Tree

variable {known : Value → Prop} {supply : Nat} {root : Message}

/-- Messages in a field of a message that can be reached can be reached, if the field is flat. -/
theorem Value.Flat.ofTree {m : Message} {f : Field} {v : Value} (h : v.Flat)
    (hm : (Value.message root).Reaches (.message m)) (hf : f ∈ m.type.fields)
    (hv : m.stored? f = some v) : v.OfTree root := by
  have hhop (hp : f.isPresent v = true) : (Value.message root).Reaches v :=
    hm.hop (.field hf (by rw [MessageOf.has, hv]; exact hp) hv)
  cases h with
  | single h =>
    refine .element (h.inTree fun hi => hhop ?_)
    obtain hn | ⟨n, rfl⟩ := h
    · exact absurd hn hi
    · rfl
  | list h =>
    exact .list fun u hu =>
      (h u hu).inTree fun _ => (hhop (f.isPresent_of_mem_parts hu)).hop (.item hu)
  | map h =>
    exact .map fun e he => (h e he).inTree fun _ =>
      (hhop (f.isPresent_of_mem_parts (List.mem_map_of_mem he))).hop (.entry he)

/-- A search that starts from a root comes upon messages in its tree only. -/
theorem Coherent.sources_ofTree (h : Coherent known supply) (hr : known (.message root)) :
    Sources (Value.OfTree root) (Value.InTree root) where
  known_of_element _ := .element
  scalar _ := .scalar
  field m f v hm hf hv := by
    cases hm with
    | element hm =>
      cases hm with
      | scalar hn => cases hn
      | message hm =>
        obtain ⟨fresh, u, hu⟩ :=
          h.accepted m (h.known_of_reaches hr hm) f hf v (m.slot_of_stored? hv)
        exact (Field.flat_of_accept hu).ofTree hm hf hv
  item l hl := by
    cases hl with
    | element hl =>
      cases hl with
      | scalar hn => cases hn
    | list hl => exact hl
  entry m hm := by
    cases hm with
    | element hm =>
      cases hm with
      | scalar hn => cases hn
    | map hm => exact hm

end Tree

/-- A query yields no lists, and no messages but the root and those that can be reached from it by
present fields, items and entries. -/
theorem Query.reaches_of_mem_find (q : Query) {w : Workshop} {root : Message} (hw : w.Reached)
    (hr : .message root ∈ w.values) (n : Nat) :
    ∀ v ∈ ((q.find root).run n).1.values,
      v.isList = false ∧ ∀ m, v = .message m → (Value.message root).Reaches (.message m) := by
  intro v hv
  obtain ⟨known, hk⟩ := hw.holds
  have hs := hk.coherent.sources_ofTree (hk.values _ hr)
  have hfound := q.found_of_mem_find hs (.element (.message (.refl _))) n v hv
  constructor
  · cases hl : v.isList with
    | false => rfl
    | true => exact hl.symm.trans (hfound.element hl).isList
  · rintro m rfl
    cases hfound.gathered.known_message with
    | element h =>
      cases h with
      | scalar hn => cases hn
      | message h => exact h

/-- All that stands below the root of the grove. -/
theorem Query.reaches_of_mem_find_grove :
    Grove.workshop.Reached ∧ .message Grove.tree ∈ Grove.workshop.values ∧
      ∀ v ∈ ((Query.find ⟨[⟨[.root, .descend, .field "children"]⟩]⟩ Grove.tree).run 7).1.values,
        v.isList = false ∧
          ∀ m, v = .message m → (Value.message Grove.tree).Reaches (.message m) :=
  ⟨Grove.grove_reached, .head _,
    Query.reaches_of_mem_find ⟨[⟨[.root, .descend, .field "children"]⟩]⟩ Grove.grove_reached
      (.head _) 7⟩

end RecordPath
