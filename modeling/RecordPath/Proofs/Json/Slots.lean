import RecordPath.Proofs.Json.Fields

namespace RecordPath

open Json (childrenNamed)

def Field.shown (f : Field) (slots : List (Option Value)) : Option Json :=
  (slots[f.index]?.join).bind f.display

section Slots

variable {t : MessageType} {f g : Field} {slots : List (Option Value)} {w : Value}

theorem shown_set_self (hf : f ∈ t.fields) (hlen : slots.length = t.fields.length) :
    f.shown (slots.set f.index (some w)) = f.display w := by
  have hlt : f.index < slots.length := hlen ▸ MessageType.index_lt hf
  rw [Field.shown, List.getElem?_set_self hlt]
  rfl

theorem shown_set_of_ne (hf : f ∈ t.fields) (hg : g ∈ t.fields) (hne : f ≠ g) :
    f.shown (slots.set g.index (some w)) = f.shown slots := by
  have hindex : g.index ≠ f.index := fun he => hne (MessageType.index_injective hf hg he.symm)
  rw [Field.shown, List.getElem?_set_ne hindex, Field.shown]

theorem shown_start (f : Field) (t : MessageType) : f.shown (Builder.start t).slots = none := by
  rw [Field.shown, Builder.start, List.getElem?_replicate]
  split <;> rfl

theorem renderFields_drop {fields : List Field} {k : Nat}
    (hk : ∀ (i : Nat) (hi : i < fields.length), fields[i].index = k + i) :
    Value.renderFields fields (slots.drop k) =
      fields.filterMap fun f => (f.shown slots).map fun j => (f.name, j) := by
  induction fields generalizing k with
  | nil => cases slots.drop k <;> rfl
  | cons f rest ih =>
    have hindex : f.index = k := hk 0 (Nat.zero_lt_succ _)
    have hrest := ih (k := k + 1) fun i hi => by
      have := hk (i + 1) (Nat.succ_lt_succ hi)
      rw [List.getElem_cons_succ] at this
      omega
    rw [List.filterMap_cons, ← hrest, Field.shown, hindex]
    by_cases hlt : k < slots.length
    · rw [List.drop_eq_getElem_cons hlt, List.getElem?_eq_getElem hlt]
      cases slots[k] with
      | none => rfl
      | some v =>
        rw [Value.renderFields, Option.join_some, Option.bind_some, Field.display]
        split <;> rfl
    · -- fields without a slot show nothing
      rw [List.drop_of_length_le (by omega), List.drop_of_length_le (by omega),
        List.getElem?_eq_none (by omega)]
      cases rest <;> rfl

/-- What a message shows, field by field. -/
theorem renderFields_eq (t : MessageType) (slots : List (Option Value)) :
    Value.renderFields t.fields slots =
      t.fields.filterMap fun f => (f.shown slots).map fun j => (f.name, j) := by
  have h : Value.renderFields t.fields (slots.drop 0) = _ :=
    renderFields_drop fun i hi => by rw [t.index_eq i hi, Nat.zero_add]
  rwa [List.drop_zero] at h

end Slots

namespace MessageOf

theorem exists_members (m : Message) : ∃ members, (Value.message m).toJson = .object members ∧
    ∀ f ∈ m.type.fields, members.lookup f.name = (m.stored? f).bind f.display := by
  let shown := m.type.fields.filterMap fun f => (f.shown m.slots).map fun j => (f.name, j)
  have hnodup : (shown.map (·.1)).Nodup :=
    (Json.names_filterMap Field.name (·.shown m.slots) m.type.fields).nodup m.type.nodup
  have hperm := Json.perm_sorted hnodup
  have hsorted : ((Json.sorted shown).map (·.1)).Nodup := (hperm.map _).nodup_iff.2 hnodup
  refine ⟨Json.sorted shown, ?_, fun f hf => ?_⟩
  · exact congrArg (fun members => Json.object (Json.sorted members)) (renderFields_eq _ _)
  · rw [stored?_of_mem hf]
    refine Option.ext fun j => ?_
    rw [Json.lookup_eq_some_iff_mem hsorted, hperm.mem_iff, List.mem_filterMap]
    constructor
    · rintro ⟨g, hg, hj⟩
      obtain ⟨j', hj', he⟩ := Option.map_eq_some_iff.1 hj
      obtain ⟨hname, rfl⟩ := Prod.mk.inj he
      exact MessageType.name_injective hg hf hname ▸ hj'
    · intro hj
      exact ⟨f, hf, Option.map_eq_some_iff.2 ⟨j, hj, rfl⟩⟩

end MessageOf

theorem Builder.put_of_fault_eq_none {b : Builder} {fresh : Ident} {name : String} {v : Value}
    {f : Field} (hf : b.type.field? name = some f) (h : (b.put fresh name v).fault = none) :
    b.fault = none ∧ ∃ w, f.accept fresh v = .ok w ∧
      b.put fresh name v = { b with slots := b.slots.set f.index (some w) } := by
  unfold put at h ⊢
  split at h
  · rename_i e he
    rw [he] at h
    cases h
  · rename_i hfault
    refine ⟨hfault, ?_⟩
    rw [hf] at h ⊢
    dsimp only at h ⊢
    split at h
    · rename_i w hw
      exact ⟨w, hw, by rw [hfault]⟩
    · cases h

/-- What setting some members does to a message in the making. -/
structure Fills (kin : List Json) (members : List (String × Json)) (b b' : Builder) : Prop where
  fault : b.fault = none
  type : b'.type = b.type
  length : b'.slots.length = b.slots.length
  shown : ∀ f ∈ b.type.fields, f.shown b'.slots =
    match members.lookup f.name with
    | none => f.shown b.slots
    | some j => j.kept (childrenNamed f.name kin)

namespace Fills

variable {kin : List Json} {name : String} {j : Json} {rest : List (String × Json)}
  {b b' : Builder}

theorem skip (h : Fills kin rest b b') (hj : j.isBlank = true) (hname : name ∉ rest.map (·.1))
    (hempty : ∀ f ∈ b.type.fields, f.name = name → f.shown b.slots = none) :
    Fills kin ((name, j) :: rest) b b' where
  fault := h.fault
  type := h.type
  length := h.length
  shown f hf := by
    rw [h.shown f hf]
    by_cases hn : f.name = name
    · rw [hn, Json.lookup_eq_none_iff_not_mem.2 hname, List.lookup_cons_self]
      dsimp only
      rw [hempty f hf hn, Json.kept, if_pos hj]
    · rw [Json.lookup_cons_of_ne hn]

theorem put {f : Field} {fresh : Ident} {v : Value} (hf : b.type.field? name = some f)
    (hlen : b.slots.length = b.type.fields.length)
    (h : Fills kin rest (b.put fresh name v) b') (hname : name ∉ rest.map (·.1))
    (hv : ∀ w, f.accept fresh v = .ok w → f.display w = j.kept (childrenNamed name kin)) :
    Fills kin ((name, j) :: rest) b b' := by
  obtain ⟨hfault, w, hw, hput⟩ := Builder.put_of_fault_eq_none hf h.fault
  obtain ⟨hmem, rfl⟩ := MessageType.mem_of_field? hf
  rw [hput] at h
  refine ⟨hfault, h.type, h.length.trans List.length_set, fun g hg => ?_⟩
  rw [h.shown g hg]
  by_cases hn : g.name = f.name
  · obtain rfl := MessageType.name_injective hg hmem hn
    rw [Json.lookup_eq_none_iff_not_mem.2 hname, List.lookup_cons_self]
    dsimp only
    rw [shown_set_self hg hlen, hv w hw]
  · rw [Json.lookup_cons_of_ne hn]
    have hne : g ≠ f := fun he => hn (he ▸ rfl)
    dsimp only
    rw [shown_set_of_ne hg hmem hne]

end Fills

namespace Json

/-- A message that was filled from nothing is shown as the normal form of the object. -/
theorem render_of_fills {kin : List Json} {members : List (String × Json)} {types : TypeTable}
    {t : MessageType} {b : Builder} (h : Fills kin members (.start t) b) (ht : t.Suits types kin)
    (hms : MembersAmong kin members) (ident : Ident) (names : Int64 → Option String) :
    (Value.message ⟨ident, b.type, b.slots⟩).render names = normal kin (object members) := by
  have hlen : b.slots.length = t.fields.length := h.length.trans List.length_replicate
  have hnodup := (names_filterMap Field.name (·.shown b.slots) t.fields).nodup t.nodup
  have hsub := names_filterMap Prod.fst
    (fun m : String × Json => m.2.kept (childrenNamed m.1 kin)) members
  rw [Value.render, normal, show b.type = t from h.type, renderFields_eq, normalMembers_eq]
  congr 1
  refine (inOrder_sorted hnodup).eq_of_mem_iff (inOrder_of_names (hms.sorted.sublist hsub))
    fun m => ?_
  rw [(perm_sorted hnodup).mem_iff, List.mem_filterMap, List.mem_filterMap]
  constructor
  · rintro ⟨f, hf, hx⟩
    rw [h.shown f hf] at hx
    cases hj : members.lookup f.name with
    | none =>
      rw [hj] at hx
      dsimp only at hx
      rw [shown_start] at hx
      cases hx
    | some j =>
      rw [hj] at hx
      exact ⟨(f.name, j), mem_of_lookup hj, hx⟩
  · rintro ⟨⟨name, j⟩, hj, hx⟩
    cases hf : t.field? name with
    | none =>
      have hitems : j.items = [] := List.subset_nil.1 (ht.none name hf ▸ hms.items _ hj)
      rw [kept, if_pos (isBlank_of_items hitems)] at hx
      cases hx
    | some f =>
      obtain ⟨hmem, rfl⟩ := MessageType.mem_of_field? hf
      refine ⟨f, hmem, ?_⟩
      rw [h.shown f hmem, (lookup_eq_some_iff_mem hms.nodup).2 hj]
      exact hx

end Json

end RecordPath
