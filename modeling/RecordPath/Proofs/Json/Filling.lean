import RecordPath.Proofs.Json.Slots

namespace RecordPath.Json

theorem of_run_bind {α β : Type} {x : Convert α} {f : α → Convert β} {n k : Nat} {b : β}
    (h : (x >>= f).run n = .ok (b, k)) :
    ∃ a n', x.run n = .ok (a, n') ∧ (f a).run n' = .ok (b, k) := by
  obtain ⟨⟨a, n'⟩, ha, hb⟩ := of_bind_eq_ok h
  exact ⟨a, n', ha, hb⟩

variable {types : TypeTable}

section Runs

variable {f : Field} {b b' : Builder} {n k : Nat}

theorem of_run_build {α : Type} {make : Message → α} {x : α}
    (h : StateT.run (m := Except ConversionError) (do
      match ← ofAlloc b.build with
      | .ok m => return make m
      | .error e => throw (.record e)) n = .ok (x, k)) :
    b.fault = none ∧ x = make ⟨⟨n⟩, b.type, b.slots⟩ := by
  obtain ⟨type, slots, fault⟩ := b
  cases fault with
  | some e => cases h
  | none =>
    cases h
    exact ⟨rfl, rfl⟩

/-- A member is passed over, or its value is made and set. -/
theorem of_run_setMembers_cons {name : String} {j : Json} {rest : List (String × Json)}
    (h : (setMembers types b ((name, j) :: rest)).run n = .ok (b', k)) :
    ((b.type.field? name = none ∨ j = null) ∧
        (setMembers types b rest).run n = .ok (b', k)) ∨
      ∃ f v n₁, b.type.field? name = some f ∧
        ((∃ js vs n₂, j = array js ∧ (elements types f js).run n = .ok (vs, n₂) ∧
            v = .list ⟨⟨n₂⟩, vs⟩) ∨
          (j.items = [j] ∧ ∃ n₂, (element types f j).run n = .ok (v, n₂))) ∧
        (setMembers types (b.put ⟨n₁⟩ name v) rest).run (n₁ + (b.remakes name v).toNat) =
          .ok (b', k) := by
  unfold setMembers at h
  cases hf : b.type.field? name with
  | none =>
    rw [hf] at h
    exact .inl ⟨.inl rfl, h⟩
  | some f =>
    rw [hf] at h
    cases j with
    | null => exact .inl ⟨.inr rfl, h⟩
    | array js =>
      obtain ⟨vs, n₂, hvs, h⟩ := of_run_bind h
      exact .inr ⟨f, _, n₂ + 1, rfl, .inl ⟨js, vs, n₂, rfl, hvs, rfl⟩, h⟩
    | _ =>
      obtain ⟨v, n₂, hv, h⟩ := of_run_bind h
      exact .inr ⟨f, v, n₂, rfl, .inr ⟨rfl, n₂, hv⟩, h⟩

theorem of_run_element_object {members : List (String × Json)} {v : Value}
    (h : (element types f (object members)).run n = .ok (v, k)) :
    ∃ typeName t b n₁, f.kind = .message typeName ∧ types.lookup typeName = some t ∧
      (setMembers types (.start t) members).run n = .ok (b, n₁) ∧ b.fault = none ∧
      v = .message ⟨⟨n₁⟩, b.type, b.slots⟩ := by
  rw [element] at h
  split at h
  · rename_i typeName hk
    split at h
    · cases h
    · rename_i t ht
      obtain ⟨b, n₁, hb, h⟩ := of_run_bind h
      obtain ⟨hfault, rfl⟩ := of_run_build h
      exact ⟨typeName, t, b, n₁, hk, ht, hb, hfault, rfl⟩
  · cases h

theorem of_run_element_plain {j : Json} {v : Value} (hj : ∀ members, j = object members → False)
    (h : (element types f j).run n = .ok (v, k)) : plainValue? f.kind j = some v := by
  rw [element.eq_2 types f j hj] at h
  split at h
  · cases h
    assumption
  · cases h

theorem of_run_elements_cons {j : Json} {rest : List Json} {vs : List Value} (hj : j ≠ null)
    (h : (elements types f (j :: rest)).run n = .ok (vs, k)) :
    ∃ v ws n₁ n₂, (element types f j).run n = .ok (v, n₁) ∧
      (elements types f rest).run n₁ = .ok (ws, n₂) ∧ vs = v :: ws := by
  rw [elements.eq_3 types f j rest hj] at h
  obtain ⟨v, n₁, hv, h⟩ := of_run_bind h
  obtain ⟨ws, n₂, hws, h⟩ := of_run_bind h
  cases h
  exact ⟨v, ws, n₁, _, hv, hws, rfl⟩

end Runs

mutual

/-- Setting members of an object that is one of `kin`, in a message of a type that suits these. -/
theorem fills_setMembers {kin : List Json} {b b' : Builder} {members : List (String × Json)}
    {n k : Nat} (hlen : b.slots.length = b.type.fields.length) (ht : b.type.Suits types kin)
    (hms : MembersAmong kin members)
    (hempty : b.fault = none →
      ∀ f ∈ b.type.fields, f.name ∈ members.map (·.1) → f.shown b.slots = none)
    (h : (setMembers types b members).run n = .ok (b', k)) (hfault : b'.fault = none) :
    Fills kin members b b' := by
  match members with
  | [] =>
    cases h
    exact ⟨hfault, rfl, rfl, fun f _ => rfl⟩
  | (name, j) :: rest =>
    have hj : j.Regular := hms.regular _ List.mem_cons_self
    have hitems : j.items ⊆ childrenNamed name kin := hms.items _ List.mem_cons_self
    have hname : name ∉ rest.map (·.1) := (List.nodup_cons.1 hms.nodup).1
    obtain ⟨hskip, h⟩ | ⟨f, v, n₁, hf, hv, h⟩ := of_run_setMembers_cons h
    · have hblank : j.isBlank = true := by
        obtain hno | rfl := hskip
        · exact isBlank_of_items (List.subset_nil.1 (ht.none name hno ▸ hitems))
        · rfl
      have hfills := fills_setMembers hlen ht hms.tail
        (fun hb f hf hfn => hempty hb f hf (List.mem_cons_of_mem _ hfn)) h hfault
      exact hfills.skip hblank hname fun f hf hfn =>
        hempty hfills.fault f hf (hfn ▸ List.mem_cons_self)
    · obtain ⟨htype, -⟩ := b.put_cases ⟨n₁⟩ name v
      have hfills : Fills kin rest (b.put ⟨n₁⟩ name v) b' := by
        refine fills_setMembers ?_ (htype ▸ ht) hms.tail ?_ h hfault
        · rw [b.length_put, htype, hlen]
        · intro hb g hg hgn
          obtain ⟨hfault, w, -, hput⟩ := Builder.put_of_fault_eq_none hf hb
          obtain ⟨hmem, rfl⟩ := MessageType.mem_of_field? hf
          rw [htype] at hg
          rw [hput, shown_set_of_ne hg hmem fun he => hname (he ▸ hgn)]
          exact hempty hfault g hg (List.mem_cons_of_mem _ hgn)
      have hkind (i : Json) (hi : i ∈ j.items) :
          Admits types f.kind (childrenNamed name kin) ∧ i ∈ childrenNamed name kin :=
        ⟨ht.some name f hf (List.ne_nil_of_mem (hitems hi)), hitems hi⟩
      refine hfills.put hf hlen hname fun w hw => ?_
      obtain ⟨js, vs, n₂, hjs, hvs, rfl⟩ | ⟨hself, n₂, hv⟩ := hv
      · have hlt : sizeOf js < sizeOf j := by
          rw [hjs, array.sizeOf_spec]
          omega
        rw [hjs] at hj hkind ⊢
        obtain ⟨haccept, hrender, hnil⟩ := converts_elements
          (fun i hi hnull => hkind i (List.mem_filter.2 ⟨hi, by rw [hnull]; rfl⟩))
          (fun i hi => hj.mono (within_item hi)) hvs
        exact display_list haccept hrender hnil hw
      · obtain ⟨hadmits, hmem⟩ := hkind j (hself ▸ List.mem_singleton.2 rfl)
        exact (converts_element hadmits hmem hj hv).display hw
termination_by sizeOf members
decreasing_by all_goals simp only [List.cons.sizeOf_spec, Prod.mk.sizeOf_spec]; omega

theorem converts_element {kin : List Json} {f : Field} {j : Json} {v : Value} {n k : Nat}
    (hk : Admits types f.kind kin) (hmem : j ∈ kin) (hj : j.Regular)
    (h : (element types f j).run n = .ok (v, k)) : f.Converts kin j v := by
  by_cases hobject : ∃ members, j = object members
  · obtain ⟨members, hmembers⟩ := hobject
    have hlt : sizeOf members < sizeOf j := by
      rw [hmembers, object.sizeOf_spec]
      omega
    rw [hmembers] at hmem hj h ⊢
    obtain ⟨typeName, t, b, n₁, hkind, htable, hb, hfault, rfl⟩ := of_run_element_object h
    have ht : t.Suits types kin := hk.suits hkind htable
    have hms : MembersAmong kin members := .of_object hj hmem
    have hfills : Fills kin members (.start t) b :=
      fills_setMembers List.length_replicate ht hms (fun _ f _ _ => shown_start f t) hb hfault
    exact converts_message hkind (render_of_fills hfills ht hms _ _)
  · have hplain := of_run_element_plain (fun members he => hobject ⟨members, he⟩) h
    cases hk with
    | plain hkind hp => exact converts_plain hkind hp hj (hkind ▸ hplain)
    | message hkind =>
      rw [hkind] at hplain
      cases j <;> cases hplain
termination_by sizeOf j
decreasing_by exact hlt

theorem converts_elements {kin js : List Json} {f : Field} {vs : List Value} {n k : Nat}
    (hk : ∀ j ∈ js, j.isNull = false → Admits types f.kind kin ∧ j ∈ kin)
    (hjs : ∀ j ∈ js, j.Regular) (h : (elements types f js).run n = .ok (vs, k)) :
    (∀ v ∈ vs, ∀ w, f.acceptElement v = .ok w → w = v) ∧
      Value.renderItems vs f.enumName? = normalItems kin js ∧ vs.isEmpty = js.all isNull := by
  match js with
  | [] =>
    cases h
    exact ⟨by simp, rfl, rfl⟩
  | j :: rest =>
    obtain ⟨hjk, hrestk⟩ := List.forall_mem_cons.1 hk
    obtain ⟨hj, hrest⟩ := List.forall_mem_cons.1 hjs
    by_cases hnull : j = null
    · subst hnull
      rw [elements] at h
      obtain ⟨haccept, hrender, hnil⟩ := converts_elements hrestk hrest h
      exact ⟨haccept, hrender, hnil⟩
    · obtain ⟨v, ws, n₁, n₂, hv, hws, rfl⟩ := of_run_elements_cons hnull h
      have hfalse : j.isNull = false := by
        cases j <;> first | rfl | exact absurd rfl hnull
      obtain ⟨hkind, hmem⟩ := hjk hfalse
      have hfirst := converts_element hkind hmem hj hv
      obtain ⟨haccept, hrender, -⟩ := converts_elements hrestk hrest hws
      refine ⟨List.forall_mem_cons.2 ⟨hfirst.accepted, haccept⟩, ?_, ?_⟩
      · rw [Value.renderItems, hfirst.render, hrender, normalItems.eq_3 kin j rest hnull]
      · rw [List.all_cons, hfalse]
        rfl
termination_by sizeOf js
decreasing_by all_goals simp only [List.cons.sizeOf_spec]; omega

end

end RecordPath.Json
