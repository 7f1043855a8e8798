import RecordPath.Proofs.Json.Filling

namespace RecordPath.Json

open Shape

variable {members : List (String × Json)} {m : Message} {n k : Nat}

/-- A document becomes a record in three passes: its shape is inferred, types are declared for the
shape, and a message of the outermost type is filled. -/
theorem of_run_toRecord (h : (toRecord (object members)).run n = .ok (m, k)) :
    ∃ shapes fields types types' t b n₁, ofMembers rootType members = .ok shapes ∧
      declareFields rootType shapes [] = .ok (fields, types) ∧
      enter rootType fields types = .ok (t, types') ∧
      (setMembers types' (.start t) members).run n = .ok (b, n₁) ∧ b.fault = none ∧
      m = ⟨⟨n₁⟩, b.type, b.slots⟩ := by
  unfold toRecord at h
  dsimp only at h
  split at h
  · cases h
  · rename_i shapes hshapes
    split at h
    · cases h
    · rename_i t types' hdeclared
      obtain ⟨⟨fields, types⟩, hfields, henter⟩ := of_bind_eq_ok hdeclared
      obtain ⟨b, n₁, hb, h⟩ := of_run_bind h
      obtain ⟨hfault, rfl⟩ := of_run_build h
      exact ⟨shapes, fields, types, types', t, b, n₁, hshapes, hfields, henter, hb, hfault, rfl⟩

/-- The types that are declared for a document are right for all that stands in it. -/
theorem admits_root {shapes : List (String × MemberShape)} {types types' : TypeTable}
    {fields : List (String × Cardinality × FieldKind)} {t : MessageType}
    (hdoc : (object members).Regular) (hshapes : ofMembers rootType members = .ok shapes)
    (hfields : declareFields rootType shapes [] = .ok (fields, types))
    (henter : enter rootType fields types = .ok (t, types')) :
    Admits types' (.message rootType) [object members] := by
  obtain ⟨hsub, htells⟩ :=
    tells_ofMembers (fun m hm => hdoc.mono (within_member hm)) hdoc.nodup hshapes
  have hnodup : (shapes.map (·.1)).Nodup := hsub.nodup hdoc.nodup
  have htells (name : String) :
      TellsElement (elementOf shapes name) (childrenNamed name [object members]) := by
    rw [childrenNamed_object]
    exact htells name
  have helements (s : String × MemberShape) (hs : s ∈ shapes) :
      TellsElement s.2.element (childrenNamed s.1 [object members]) := by
    rw [← elementOf_of_lookup ((lookup_eq_some_iff_mem hnodup).2 hs)]
    exact htells s.1
  obtain ⟨hnames, hkinds, hadds⟩ := admits_declareFields helements hnodup
    (fun name hname => hdoc.undotted _ (self_mem_within _) name (hsub.subset hname))
    (fun _ _ => rfl) hfields
  exact (admits_enter (fun name => (htells name).none) hnames hkinds hadds (fun _ _ => rfl)
    henter).1

/-- A document that is made a record and written as JSON again is in its normal form, if no name of
a member has a dot in it. -/
theorem toJson_of_toRecord {doc : Json} (hw : doc.WellFormed) (hdots : doc.Undotted)
    (h : (toRecord doc).run n = .ok (m, k)) : (Value.message m).toJson = doc.norm := by
  cases doc with
  | object members =>
    have hdoc : (object members).Regular := ⟨hw, hdots⟩
    obtain ⟨shapes, fields, types, types', t, b, n₁, hshapes, hfields, henter, hb, hfault, rfl⟩ :=
      of_run_toRecord h
    obtain ⟨-, rfl⟩ := of_enter henter
    have ht : t.Suits _ [object members] :=
      (admits_root hdoc hshapes hfields henter).suits rfl List.lookup_cons_self
    have hms : MembersAmong [object members] members := .of_object hdoc (List.mem_singleton.2 rfl)
    have hfills : Fills [object members] members (.start t) b :=
      fills_setMembers List.length_replicate ht hms (fun _ f _ _ => shown_start f t) hb hfault
    exact render_of_fills hfills ht hms _ _
  | _ => cases h

def order : Json :=
  object
    [("lines", array
        [object [("price", number (.integer 3)), ("tags", array [null])], null,
          object [("price", number (.float 2.5))]]),
      ("note", string ""), ("paid", bool false)]

/-- The first price becomes a double, and what is blank is left out. -/
theorem toJson_of_toRecord_order :
    order.WellFormed ∧ order.Undotted ∧ ∃ m k, (toRecord order).run 0 = .ok (m, k) ∧
      (Value.message m).toJson =
        object
          [("lines", array
            [object [("price", number (.float (Float.ofInt 3)))],
              object [("price", number (.float 2.5))]])] := by
  have hw : order.WellFormed := ⟨by decide +kernel, by decide +kernel⟩
  have hdots : order.Undotted := by
    unfold Undotted
    decide +kernel
  have hok : ((toRecord order).run 0).isOk = true := by decide +kernel
  cases h : (toRecord order).run 0 with
  | error e =>
    rw [h] at hok
    cases hok
  | ok r => exact ⟨hw, hdots, r.1, r.2, rfl, toJson_of_toRecord hw hdots h⟩

end RecordPath.Json
