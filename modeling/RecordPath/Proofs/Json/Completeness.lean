import RecordPath.Proofs.Json.Slots
import RecordPath.Proofs.Json.TypeNames

namespace RecordPath

open Shape

namespace Json

mutual

/-- What a value becomes whose shape was inferred at a path. An object becomes a message of the type
that is named for the path. -/
inductive Becomes : String → Shape → Json → Value → Prop
  | plain {path : String} {p : PlainShape} {j : Json} {v : Value}
      (h : plainValue? p.kind j = some v) : Becomes path (.plain p) j v
  | object {path : String} {shapes : List (String × MemberShape)} {members : List (String × Json)}
      {m : Message} (ht : Serves m.type path shapes) (h : MembersBecome path shapes m members) :
      Becomes path (.object shapes) (object members) (.message m)

inductive MembersBecome :
    String → List (String × MemberShape) → Message → List (String × Json) → Prop
  | nil {path : String} {shapes : List (String × MemberShape)} {m : Message} :
      MembersBecome path shapes m []
  | null {path name : String} {shapes : List (String × MemberShape)} {m : Message}
      {rest : List (String × Json)} (h : MembersBecome path shapes m rest) :
      MembersBecome path shapes m ((name, null) :: rest)
  | stored {path name : String} {shapes : List (String × MemberShape)} {m : Message}
      {rest : List (String × Json)} {s : MemberShape} {f : Field} {j : Json} {v : Value}
      (hs : shapes.lookup name = some s) (hf : m.type.field? name = some f)
      (hv : m.stored? f = some v) (hj : MemberBecomes (memberPath path name) s j v)
      (h : MembersBecome path shapes m rest) : MembersBecome path shapes m ((name, j) :: rest)

/-- An array becomes a list, and any other value what it becomes by itself. -/
inductive MemberBecomes : String → MemberShape → Json → Value → Prop
  | single {path : String} {s : Shape} {j : Json} {v : Value} (h : Becomes path s j v) :
      MemberBecomes path ⟨false, some s⟩ j v
  | list {path : String} {known : Option Shape} {items : List Json} {vs : List Value}
      (ident : Ident) (h : ItemsBecome path known items vs) :
      MemberBecomes path ⟨true, known⟩ (array items) (.list ⟨ident, vs⟩)

inductive ItemsBecome : String → Option Shape → List Json → List Value → Prop
  | nil {path : String} {known : Option Shape} : ItemsBecome path known [] []
  | null {path : String} {known : Option Shape} {rest : List Json} {vs : List Value}
      (h : ItemsBecome path known rest vs) : ItemsBecome path known (null :: rest) vs
  | cons {path : String} {s : Shape} {j : Json} {rest : List Json} {v : Value} {vs : List Value}
      (hj : Becomes path s j v) (h : ItemsBecome path (some s) rest vs) :
      ItemsBecome path (some s) (j :: rest) (v :: vs)

end

end Json

open Json

section Accepting

variable {path : String} {f : Field} {v : Value}

theorem Field.acceptElement_of_becomes {s : Shape} {j : Json} (hk : f.kind = kindOf path (some s))
    (h : Becomes path s j v) : f.acceptElement v = .ok v := by
  cases h with
  | plain hv => exact acceptElement_of_plain hk hv
  | object ht =>
    unfold acceptElement
    rw [hk]
    simp only [kindOf, ht.name, if_true]

theorem Field.acceptElement_of_itemsBecome {known : Option Shape} {items : List Json}
    {vs : List Value} (hk : f.kind = kindOf path known) (h : ItemsBecome path known items vs) :
    vs.mapM f.acceptElement = .ok vs := by
  induction items generalizing vs with
  | nil =>
    cases h
    rfl
  | cons j rest ih =>
    cases h with
    | null h => exact ih h
    | cons hj h =>
      rw [List.mapM_cons, acceptElement_of_becomes hk hj, ih h]
      rfl

theorem Field.exists_accept {s : MemberShape} {j : Json}
    (hc : f.cardinality = Shape.cardinality s.repeated) (hk : f.kind = kindOf path s.element)
    (h : MemberBecomes path s j v) (fresh : Ident) :
    ∃ w, f.accept fresh v = .ok w ∧ MemberBecomes path s j w := by
  unfold accept
  cases h with
  | single h =>
    rw [hc]
    exact ⟨v, acceptElement_of_becomes hk h, .single h⟩
  | @list _ _ _ vs ident h =>
    rw [hc]
    simp only [Shape.cardinality, if_true, acceptElement_of_itemsBecome hk h]
    refine ⟨_, rfl, ?_⟩
    split
    · exact .list ident h
    · exact .list fresh h

end Accepting

namespace Json

/-- What setting the members of an object does to a message in the making. -/
structure Stores (path : String) (shapes : List (String × MemberShape))
    (members : List (String × Json)) (b b' : Builder) : Prop where
  type : b'.type = b.type
  fault : b'.fault = none
  other : ∀ f ∈ b.type.fields, f.name ∉ members.map (·.1) →
    b'.slots[f.index]? = b.slots[f.index]?
  members : ∀ ident, MembersBecome path shapes ⟨ident, b'.type, b'.slots⟩ members

section Runs

variable {types : TypeTable} {b : Builder} {f : Field} {name : String}
  {rest : List (String × Json)} {n k : Nat}

theorem run_setMembers_array {items : List Json} {vs : List Value}
    (hf : b.type.field? name = some f) (h : (elements types f items).run n = .ok (vs, k)) :
    (setMembers types b ((name, array items) :: rest)).run n =
      (setMembers types (b.put ⟨k + 1⟩ name (.list ⟨⟨k⟩, vs⟩)) rest).run
        (k + 1 + (b.remakes name (.list ⟨⟨k⟩, vs⟩)).toNat) := by
  conv_lhs => unfold setMembers
  rw [hf]
  change ((elements types f items).run n >>= _) = _
  rw [h]
  rfl

theorem run_setMembers_single {j : Json} {v : Value} (hj : j.isArray = false)
    (hnull : j.isNull = false) (hf : b.type.field? name = some f)
    (h : (element types f j).run n = .ok (v, k)) :
    (setMembers types b ((name, j) :: rest)).run n =
      (setMembers types (b.put ⟨k⟩ name v) rest).run (k + (b.remakes name v).toNat) := by
  conv_lhs => unfold setMembers
  rw [hf]
  cases j with
  | null => cases hnull
  | array => cases hj
  | _ =>
    change ((element types f _).run n >>= _) = _
    rw [h]
    rfl

theorem run_setMembers_null :
    (setMembers types b ((name, null) :: rest)).run n = (setMembers types b rest).run n := by
  conv_lhs => unfold setMembers
  cases b.type.field? name <;> rfl

theorem run_element_object {members : List (String × Json)} {typeName : String} {t : MessageType}
    {b : Builder} (hk : f.kind = .message typeName) (ht : types.lookup typeName = some t)
    (h : (setMembers types (.start t) members).run n = .ok (b, k)) (hfault : b.fault = none) :
    (element types f (object members)).run n =
      .ok (.message ⟨⟨k⟩, b.type, b.slots⟩, k + 1) := by
  rw [element, hk]
  simp only [ht]
  change ((setMembers types (.start t) members).run n >>= _) = _
  rw [h]
  obtain ⟨type, slots, fault⟩ := b
  cases hfault
  rfl

theorem run_toRecord {members : List (String × Json)} {shapes : List (String × MemberShape)}
    {fields : List (String × Cardinality × FieldKind)} {types types' : TypeTable} {t : MessageType}
    {b : Builder} (hs : ofMembers rootType members = .ok shapes)
    (hfields : declareFields rootType shapes [] = .ok (fields, types))
    (henter : enter rootType fields types = .ok (t, types'))
    (h : (setMembers types' (.start t) members).run n = .ok (b, k)) (hfault : b.fault = none) :
    (toRecord (object members)).run n = .ok (⟨⟨k⟩, b.type, b.slots⟩, k + 1) := by
  have hdeclared : (declareFields rootType shapes [] >>= fun p => enter rootType p.1 p.2) =
      .ok (t, types') := by
    rw [hfields]
    exact henter
  unfold toRecord
  dsimp only
  rw [hs]
  dsimp only
  rw [hdeclared]
  change ((setMembers types' (.start t) members).run n >>= _) = _
  rw [h]
  obtain ⟨type, slots, fault⟩ := b
  cases hfault
  rfl

theorem run_element_plain {j : Json} {v : Value} (h : plainValue? f.kind j = some v) :
    (element types f j).run n = .ok (v, n) := by
  have hj : ∀ members, j = object members → False := by
    rintro members rfl
    cases hk : f.kind <;> rw [hk] at h <;> cases h
  rw [element.eq_2 types f j hj, h]
  rfl

theorem run_elements_cons {j : Json} {items : List Json} {v : Value} {vs : List Value} {l : Nat}
    (hj : j.isNull = false) (hv : (element types f j).run n = .ok (v, k))
    (hvs : (elements types f items).run k = .ok (vs, l)) :
    (elements types f (j :: items)).run n = .ok (v :: vs, l) := by
  have hne : j ≠ null := fun he => by rw [he] at hj; cases hj
  rw [elements.eq_3 types f j items hne]
  change ((element types f j).run n >>= _) = _
  rw [hv]
  change ((elements types f items).run k >>= _) = _
  rw [hvs]
  rfl

end Runs

theorem Stores.null {path : String} {shapes : List (String × MemberShape)} {name : String}
    {rest : List (String × Json)} {b b' : Builder} (h : Stores path shapes rest b b') :
    Stores path shapes ((name, Json.null) :: rest) b b' where
  type := h.type
  fault := h.fault
  other f hf hname := h.other f hf fun hmem => hname (List.mem_cons_of_mem _ hmem)
  members ident := .null (h.members ident)

/-- A member is stored, and those after it leave it alone. -/
theorem Stores.cons {path : String} {shapes : List (String × MemberShape)} {s : MemberShape}
    {name : String} {j : Json} {rest : List (String × Json)} {b b' : Builder} {f : Field}
    {w : Value} (hs : shapes.lookup name = some s) (hf : b.type.field? name = some f)
    (hlen : b.slots.length = b.type.fields.length) (hname : name ∉ rest.map (·.1))
    (hw : MemberBecomes (memberPath path name) s j w)
    (h : Stores path shapes rest { b with slots := b.slots.set f.index (some w) } b') :
    Stores path shapes ((name, j) :: rest) b b' := by
  obtain ⟨hmem, rfl⟩ := MessageType.mem_of_field? hf
  refine ⟨h.type, h.fault, fun g hg hne => ?_, fun ident => ?_⟩
  · rw [List.map_cons, List.mem_cons, not_or] at hne
    rw [h.other g hg hne.2]
    refine List.getElem?_set_ne fun he => hne.1 ?_
    rw [MessageType.index_injective hg hmem he.symm]
  · refine .stored hs (by rw [h.type]; exact hf) ?_ hw (h.members ident)
    have hslot : b'.slots[f.index]? = some (some w) := by
      rw [h.other f hmem hname]
      exact List.getElem?_set_self (hlen ▸ MessageType.index_lt hmem)
    rw [MessageOf.stored?_of_mem (by rw [h.type]; exact hmem), hslot]
    rfl

variable {types : TypeTable}

mutual

/-- The members of an object are stored in a message of the type that is declared for it. -/
theorem exists_run_setMembers {path : String} {shapes : List (String × MemberShape)} {b : Builder}
    {members : List (String × Json)} (hserves : Serves b.type path shapes)
    (hdecl : ∀ name s, elementOf shapes name = some s →
      Declares types (memberPath path name) s)
    (hfit : ∀ m ∈ members, Fitting (shapes.lookup m.1) m.2)
    (hn : (members.map (·.1)).Nodup) (hms : ∀ m ∈ members, m.2.DistinctNames)
    (hfault : b.fault = none) (hlen : b.slots.length = b.type.fields.length) (n : Nat) :
    ∃ b' k, (setMembers types b members).run n = .ok (b', k) ∧ Stores path shapes members b b' := by
  match members with
  | [] => exact ⟨b, n, rfl, rfl, hfault, fun _ _ _ => rfl, fun _ => .nil⟩
  | (name, j) :: rest =>
    obtain ⟨hfirst, hfit⟩ := List.forall_mem_cons.1 hfit
    obtain ⟨hname, hn⟩ := List.nodup_cons.1 hn
    obtain ⟨hj, hms⟩ := List.forall_mem_cons.1 hms
    cases hnull : j.isNull with
    | true =>
      obtain ⟨b', k, hrun, hstores⟩ :=
        exists_run_setMembers hserves hdecl hfit hn hms hfault hlen n
      cases j <;> cases hnull
      exact ⟨b', k, run_setMembers_null.trans hrun, hstores.null⟩
    | false =>
      obtain ⟨s, hs, hrepeated⟩ := hfirst.place hnull
      obtain ⟨f, hf, hcard, hkind⟩ := hserves.field name s hs
      have hroom : HasRoom s.element j.items := by
        have := hfirst.room
        rwa [hs] at this
      have hdecl' (e : Shape) (he : s.element = some e) :
          Declares types (memberPath path name) e :=
        hdecl name e ((elementOf_of_lookup hs).trans he)
      -- whatever is made for the member is accepted, and the rest goes on from there
      have hnext (v : Value) (k : Nat) (hv : MemberBecomes (memberPath path name) s j v) :
          ∃ b' l, (setMembers types (b.put ⟨k⟩ name v) rest).run
              (k + (b.remakes name v).toNat) = .ok (b', l) ∧
            Stores path shapes ((name, j) :: rest) b b' := by
        obtain ⟨w, hw, hbecomes⟩ := Field.exists_accept hcard hkind hv ⟨k⟩
        rw [Builder.put_of_accept hfault hf hw]
        obtain ⟨b', l, hrun, hstores⟩ := exists_run_setMembers
          (b := { b with slots := b.slots.set f.index (some w) }) hserves hdecl hfit hn hms hfault
          (List.length_set.trans hlen) (k + (b.remakes name v).toNat)
        exact ⟨b', l, hrun, .cons hs hf hlen hname hbecomes hstores⟩
      obtain ⟨repeated, known⟩ := s
      by_cases ha : j.isArray = true
      · obtain ⟨items, rfl⟩ := exists_of_isArray ha
        cases hrepeated
        obtain ⟨vs, k, hvs, hitems⟩ := exists_run_elements hkind hdecl' hroom hj.item n
        obtain ⟨b', l, hrun, hstores⟩ := hnext _ (k + 1) (.list ⟨k⟩ hitems)
        exact ⟨b', l, (run_setMembers_array hf hvs).trans hrun, hstores⟩
      · rw [Bool.not_eq_true] at ha
        rw [ha] at hrepeated
        cases hrepeated
        rw [items_eq_singleton hnull ha] at hroom
        obtain ⟨e, rfl, hcovers⟩ := hroom.covers j List.mem_cons_self
        obtain ⟨v, k, hv, hbecomes⟩ := exists_run_element (hroom.distinct e rfl) hcovers
          (hdecl' e rfl) hkind hj n
        obtain ⟨b', l, hrun, hstores⟩ := hnext v k (.single hbecomes)
        exact ⟨b', l, (run_setMembers_single ha hnull hf hv).trans hrun, hstores⟩
termination_by sizeOf members

theorem exists_run_element {path : String} {s : Shape} {f : Field} {j : Json} (hs : s.Distinct)
    (hc : s.Covers j) (hdecl : Declares types path s) (hk : f.kind = kindOf path (some s))
    (hj : j.DistinctNames) (n : Nat) :
    ∃ v k, (element types f j).run n = .ok (v, k) ∧ Becomes path s j v := by
  have hc' := hc
  cases hc with
  | @plain p _ v hv => exact ⟨v, n, run_element_plain (hk ▸ hv), .plain hv⟩
  | @object shapes members =>
    have hfit := Covers.fitting hs hc'
    cases hdecl with
    | object ht hserves hdecl =>
      obtain ⟨b, k, hrun, hstores⟩ := exists_run_setMembers (b := .start _) hserves hdecl hfit
        hj.nodup hj.member rfl List.length_replicate n
      refine ⟨_, k + 1, run_element_object hk ht hrun hstores.fault, .object ?_ (hstores.members _)⟩
      rw [hstores.type]
      exact hserves
termination_by sizeOf j

theorem exists_run_elements {path : String} {known : Option Shape} {f : Field} {js : List Json}
    (hk : f.kind = kindOf path known) (hdecl : ∀ s, known = some s → Declares types path s)
    (hroom : HasRoom known (array js).items) (hjs : ∀ j ∈ js, j.DistinctNames) (n : Nat) :
    ∃ vs k, (elements types f js).run n = .ok (vs, k) ∧ ItemsBecome path known js vs := by
  match js with
  | [] => exact ⟨[], n, rfl, .nil⟩
  | j :: rest =>
    obtain ⟨hj, hrest⟩ := List.forall_mem_cons.1 hjs
    cases hnull : j.isNull with
    | true =>
      cases j <;> cases hnull
      have hroom : HasRoom known (array rest).items := hroom
      obtain ⟨vs, k, hrun, hvs⟩ := exists_run_elements hk hdecl hroom hrest n
      exact ⟨vs, k, by rw [elements]; exact hrun, .null hvs⟩
    | false =>
      have hitems : (array (j :: rest)).items = j :: (array rest).items := by simp [items, hnull]
      rw [hitems] at hroom
      obtain ⟨s, rfl, hcovers⟩ := hroom.covers j List.mem_cons_self
      obtain ⟨v, k, hv, hbecomes⟩ :=
        exists_run_element (hroom.distinct s rfl) hcovers (hdecl s rfl) hk hj n
      obtain ⟨vs, l, hvs, hitems⟩ := exists_run_elements hk hdecl
        ⟨hroom.distinct, fun i hi => hroom.covers i (List.mem_cons_of_mem _ hi)⟩ hrest k
      exact ⟨v :: vs, l, run_elements_cons hnull hv hvs, .cons hbecomes hitems⟩
termination_by sizeOf js

end

/-- A document is converted whole if its shape can be inferred and the types of its objects have
different names: it has a record form, and every object in it becomes a message of a type that
declares its members with the kinds that were inferred for their paths. -/
theorem exists_becomes {members : List (String × Json)} {shapes : List (String × MemberShape)}
    (hd : (Json.object members).DistinctNames) (hs : ofMembers rootType members = .ok shapes)
    (hn : (typeNames rootType (.object shapes)).Nodup) (n : Nat) :
    ∃ m k, (toRecord (Json.object members)).run n = .ok (m, k) ∧
      Becomes rootType (.object shapes) (Json.object members) (.message m) := by
  obtain ⟨hsub, hfit⟩ := fitting_ofMembers hd.member hd.nodup hs
  have hdistinct : (Shape.object shapes).Distinct :=
    (hasRoom_object hd.nodup hsub hfit).distinct _ rfl
  have hlacks (place : String → Prop) : TypeTable.Lacks [] place := fun _ _ => rfl
  obtain ⟨types, hfields, hdecls, hadds⟩ := exists_declareFields
    (fun m hm s he => hdistinct.element hm he) (List.nodup_cons.1 hn).2 (hlacks _)
  obtain ⟨t, henter, hserves, hdecl, -⟩ := exists_enter hdistinct hn (hlacks _) hadds hdecls
  cases hdecl with
  | object _ _ hdecl =>
    obtain ⟨b, k, hrun, hstores⟩ := exists_run_setMembers (b := .start t) hserves hdecl hfit
      hd.nodup hd.member rfl List.length_replicate n
    refine ⟨_, k + 1, run_toRecord hs hfields henter hrun hstores.fault,
      .object ?_ (hstores.members _)⟩
    rw [hstores.type]
    exact hserves

def shelf : List (String × Json) :=
  [("books", .array
      [.object [("price", .number (.integer 3)), ("title", .string "A")], .null,
        .object [("tags", .array []), ("title", .string "B")]]),
    ("open", .bool true)]

def shelfShapes : List (String × MemberShape) :=
  [("books", ⟨true, some (.object
      [("price", ⟨false, some (.plain .int)⟩), ("title", ⟨false, some (.plain .string)⟩),
        ("tags", ⟨true, none⟩)])⟩),
    ("open", ⟨false, some (.plain .bool)⟩)]

theorem exists_becomes_shelf :
    (Json.object shelf).DistinctNames ∧ ofMembers rootType shelf = .ok shelfShapes ∧
      (typeNames rootType (.object shelfShapes)).Nodup ∧
      ∃ m k, (toRecord (Json.object shelf)).run 0 = .ok (m, k) ∧
        Becomes rootType (.object shelfShapes) (Json.object shelf) (.message m) := by
  have hd : (Json.object shelf).DistinctNames := by
    unfold DistinctNames
    decide +kernel
  have hs : ofMembers rootType shelf = .ok shelfShapes := rfl
  have hn : (typeNames rootType (.object shelfShapes)).Nodup := by decide +kernel
  exact ⟨hd, hs, hn, exists_becomes hd hs hn 0⟩

/-- A document with an object at `a.b` and one at a member of the name `a.b`. -/
def ambiguous : List (String × Json) :=
  [("a", .object [("b", .object [("x", .number (.integer 1))])]),
    ("a.b", .object [("x", .string "s")])]

/-- Two objects of one type name: the type that was declared last counts for both, and what it
declares does not fit the first. -/
theorem toRecord_ambiguous :
    (Json.object ambiguous).DistinctNames ∧ (ofMembers rootType ambiguous).isOk = true ∧
      (toRecord (Json.object ambiguous)).run 0 = .error (.unsupported (.unfit "1" "x")) := by
  have hd : (Json.object ambiguous).DistinctNames := by
    unfold DistinctNames
    decide +kernel
  exact ⟨hd, by decide +kernel, by rfl⟩

end Json

end RecordPath
