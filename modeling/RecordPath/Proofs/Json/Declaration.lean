import RecordPath.Json.Conversion
import RecordPath.Proofs.Json.Inference

namespace RecordPath

open Json (childrenNamed numbers items lookup_cons_of_ne lookup_eq_some_iff_mem)
open Shape

/-- A kind that is right for all that stands at a path, with the types of a table. -/
inductive Admits (types : TypeTable) : FieldKind → List Json → Prop
  | plain {kind : FieldKind} {p : PlainShape} {kin : List Json} (hk : kind = p.kind)
      (h : p.Tells (numbers kin)) : Admits types kind kin
  | message {kind : FieldKind} {typeName : String} {t : MessageType} {kin : List Json}
      (hk : kind = .message typeName) (ht : types.lookup typeName = some t)
      (hnone : ∀ name, t.field? name = none → childrenNamed name kin = [])
      (hsome : ∀ name f, t.field? name = some f → childrenNamed name kin ≠ [] →
        Admits types f.kind (childrenNamed name kin)) :
      Admits types kind kin

def TypeTable.Extends (types types' : TypeTable) : Prop :=
  ∀ name t, types.lookup name = some t → types'.lookup name = some t

theorem Admits.mono {types types' : TypeTable} {kind : FieldKind} {kin : List Json}
    (h : Admits types kind kin) (hx : types.Extends types') : Admits types' kind kin := by
  induction h with
  | plain hk h => exact .plain hk h
  | message hk ht hnone _ ih => exact .message hk (hx _ _ ht) hnone ih

/-- A message type that is right for the objects among `kin`: it has a field for every member that
holds anything, of a kind that is right for what stands there. -/
structure MessageType.Suits (types : TypeTable) (t : MessageType) (kin : List Json) : Prop where
  none : ∀ name, t.field? name = none → childrenNamed name kin = []
  some : ∀ name f, t.field? name = some f → childrenNamed name kin ≠ [] →
    Admits types f.kind (childrenNamed name kin)

theorem Admits.suits {types : TypeTable} {kind : FieldKind} {kin : List Json} {typeName : String}
    {t : MessageType} (h : Admits types kind kin) (hk : kind = .message typeName)
    (ht : types.lookup typeName = some t) : t.Suits types kin := by
  cases h with
  | @plain _ p _ hp =>
    rw [hk] at hp
    cases p <;> cases hp
  | message hk' ht' hnone hsome =>
    rw [hk] at hk'
    cases hk'
    rw [ht] at ht'
    cases ht'
    exact ⟨hnone, hsome⟩

section Paths

variable {path member member' name : String}

def Below (path name : String) : Prop :=
  ∃ tail, name.toList = path.toList ++ tail ∧ ∀ c ∈ tail.head?, c = '.'

theorem below_self (path : String) : Below path path := ⟨[], by simp, by simp⟩

theorem toList_memberPath (path member : String) :
    (memberPath path member).toList = path.toList ++ '.' :: member.toList := by
  simp [memberPath]

theorem Below.of_member (h : Below (memberPath path member) name) : Below path name := by
  obtain ⟨tail, hname, -⟩ := h
  refine ⟨'.' :: (member.toList ++ tail), ?_, by simp⟩
  rw [hname, toList_memberPath, List.append_assoc, List.cons_append]

theorem not_below_member (path member : String) : ¬ Below (memberPath path member) path := by
  rintro ⟨tail, hname, -⟩
  have hlen := congrArg List.length hname
  rw [toList_memberPath, List.length_append, List.length_append, List.length_cons] at hlen
  omega

/-- A name without dots can be read off the names below its path. -/
theorem Below.member_eq (h : Below (memberPath path member) name) (hdots : '.' ∉ member.toList) :
    (name.toList.drop (path.toList.length + 1)).takeWhile (· ≠ '.') = member.toList := by
  obtain ⟨tail, hname, htail⟩ := h
  have hdrop : name.toList.drop (path.toList.length + 1) = member.toList ++ tail := by
    rw [hname, toList_memberPath, List.append_assoc, List.cons_append, ← List.drop_drop,
      List.drop_left, List.drop_succ_cons, List.drop_zero]
  have hall : ∀ c ∈ member.toList, decide (c ≠ '.') = true := by
    rintro c hc
    exact decide_eq_true fun he => hdots (he ▸ hc)
  rw [hdrop, List.takeWhile_append_of_pos hall]
  cases tail with
  | nil => rw [List.takeWhile_nil, List.append_nil]
  | cons c rest =>
    obtain rfl := htail c rfl
    rw [List.takeWhile_cons_of_neg (by simp), List.append_nil]

theorem Below.eq_of_undotted (h : Below (memberPath path member) name)
    (h' : Below (memberPath path member') name) (hdots : '.' ∉ member.toList)
    (hdots' : '.' ∉ member'.toList) : member = member' := by
  rw [← String.toList_inj, ← h.member_eq hdots, h'.member_eq hdots']

end Paths

section Tables

variable {types types' types'' : TypeTable} {place : String → Prop}

def TypeTable.Lacks (types : TypeTable) (place : String → Prop) : Prop :=
  ∀ name, place name → types.lookup name = none

/-- Types were entered into a table for no other names than those of a place. -/
def TypeTable.Adds (place : String → Prop) (types types' : TypeTable) : Prop :=
  ∀ name, ¬ place name → types'.lookup name = types.lookup name

theorem TypeTable.Adds.extends (h : TypeTable.Adds place types types') (hl : types.Lacks place) :
    types.Extends types' := by
  intro name t ht
  rw [h name fun hp => ?_, ht]
  rw [hl name hp] at ht
  cases ht

end Tables

namespace MessageType

variable {name : String} {fields : List (String × Cardinality × FieldKind)} {t : MessageType}

theorem fields_of_declare (h : declare name fields = .ok t) : t.fields = number fields := by
  unfold declare at h
  split at h
  · cases h
  · cases h
    rfl

theorem field?_of_declare (h : declare name fields = .ok t) (member : String) :
    (t.field? member = none → member ∉ fields.map (·.1)) ∧
      ∀ f, t.field? member = some f → (member, f.cardinality, f.kind) ∈ fields := by
  constructor
  · intro hnone hmem
    obtain ⟨x, hx, rfl⟩ := List.mem_map.1 hmem
    obtain ⟨i, hi, rfl⟩ := List.getElem_of_mem hx
    have hfield : (⟨fields[i].1, i, fields[i].2.2, fields[i].2.1⟩ : Field) ∈ t.fields := by
      rw [fields_of_declare h]
      exact List.mem_mapIdx.2 ⟨i, hi, rfl⟩
    simpa using List.find?_eq_none.1 hnone _ hfield
  · intro f hf
    obtain ⟨hmem, rfl⟩ := mem_of_field? hf
    rw [fields_of_declare h, number] at hmem
    obtain ⟨i, hi, rfl⟩ := List.mem_mapIdx.1 hmem
    exact List.getElem_mem hi

end MessageType

namespace Shape

theorem of_enter {name : String} {fields : List (String × Cardinality × FieldKind)}
    {types types' : TypeTable} {t : MessageType} (h : enter name fields types = .ok (t, types')) :
    MessageType.declare name fields = .ok t ∧ types' = (name, t) :: types := by
  obtain ⟨t, ht, h⟩ := of_bind_eq_ok h
  cases h
  exact ⟨ht, rfl⟩

def MemberPlace (typeName : String) (members : List (String × MemberShape)) (name : String) :
    Prop :=
  ∃ member ∈ members.map (·.1), Below (memberPath typeName member) name

theorem admits_enter {typeName : String} {members : List (String × MemberShape)} {kin : List Json}
    {fields : List (String × Cardinality × FieldKind)} {types types₁ types₂ : TypeTable}
    {t : MessageType} (hnone : ∀ name, elementOf members name = none → childrenNamed name kin = [])
    (hnames : fields.map (·.1) = members.map (·.1))
    (hfields : ∀ field ∈ fields, childrenNamed field.1 kin ≠ [] →
      Admits types₁ field.2.2 (childrenNamed field.1 kin))
    (hadds : TypeTable.Adds (MemberPlace typeName members) types types₁)
    (hl : types.Lacks (Below typeName)) (h : enter typeName fields types₁ = .ok (t, types₂)) :
    Admits types₂ (.message typeName) kin ∧ TypeTable.Adds (Below typeName) types types₂ := by
  obtain ⟨ht, rfl⟩ := of_enter h
  have hfree : types₁.lookup typeName = none := by
    rw [hadds typeName fun ⟨member, _, hb⟩ => not_below_member _ _ hb]
    exact hl typeName (below_self typeName)
  have hext : types₁.Extends ((typeName, t) :: types₁) := by
    intro name u hu
    have hne : name ≠ typeName := by
      rintro rfl
      rw [hfree] at hu
      cases hu
    rw [lookup_cons_of_ne hne, hu]
  constructor
  · refine .message rfl List.lookup_cons_self (fun member hno => ?_) fun member f hf hne => ?_
    · refine hnone member (elementOf_of_not_mem ?_)
      rw [← hnames]
      exact (MessageType.field?_of_declare ht member).1 hno
    · exact (hfields _ ((MessageType.field?_of_declare ht member).2 f hf) hne).mono hext
  · intro name hname
    have hne : name ≠ typeName := by
      rintro rfl
      exact hname (below_self name)
    rw [lookup_cons_of_ne hne]
    exact hadds name fun ⟨member, _, hb⟩ => hname hb.of_member

mutual

/-- The kind that is declared for a shape is right for what the shape was inferred from. -/
theorem admits_declare {typeName : String} {s : Shape} {types types' : TypeTable} {kind : FieldKind}
    {kin : List Json} (hs : s.Tells kin) (hl : types.Lacks (Below typeName))
    (h : declare typeName s types = .ok (kind, types')) :
    Admits types' kind kin ∧ TypeTable.Adds (Below typeName) types types' := by
  match s with
  | .plain p =>
    cases h
    cases hs with
    | plain hp => exact ⟨.plain rfl hp, fun _ _ => rfl⟩
  | .object members =>
    cases hs with
    | object hnodup hdots hnone hsome =>
      rw [declare] at h
      obtain ⟨⟨fields, types₁⟩, hfields, h⟩ := of_bind_eq_ok h
      obtain ⟨⟨t, types₂⟩, henter, h⟩ := of_bind_eq_ok h
      cases h
      have helements (m : String × MemberShape) (hm : m ∈ members) :
          TellsElement m.2.element (childrenNamed m.1 kin) := by
        rw [← elementOf_of_lookup ((lookup_eq_some_iff_mem hnodup).2 hm)]
        exact ⟨hnone m.1, hsome m.1⟩
      obtain ⟨hnames, hkinds, hadds⟩ := admits_declareFields helements hnodup hdots
        (fun name ⟨member, _, hb⟩ => hl name hb.of_member) hfields
      exact admits_enter hnone hnames hkinds hadds hl henter
termination_by structural s

theorem admits_declareElement {typeName : String} {known : Option Shape} {types types' : TypeTable}
    {kind : FieldKind} {kin : List Json} (hs : TellsElement known kin)
    (hl : types.Lacks (Below typeName))
    (h : declareElement typeName known types = .ok (kind, types')) :
    (kin ≠ [] → Admits types' kind kin) ∧ TypeTable.Adds (Below typeName) types types' := by
  match known with
  | none =>
    cases h
    exact ⟨fun hne => absurd (hs.none rfl) hne, fun _ _ => rfl⟩
  | some s =>
    obtain ⟨hkind, hadds⟩ := admits_declare (hs.some s rfl) hl h
    exact ⟨fun _ => hkind, hadds⟩
termination_by structural known

theorem admits_declareFields {typeName : String} {members : List (String × MemberShape)}
    {types types' : TypeTable} {fields : List (String × Cardinality × FieldKind)}
    {kin : List Json} (hs : ∀ m ∈ members, TellsElement m.2.element (childrenNamed m.1 kin))
    (hnodup : (members.map (·.1)).Nodup) (hdots : ∀ name ∈ members.map (·.1), '.' ∉ name.toList)
    (hl : types.Lacks (MemberPlace typeName members))
    (h : declareFields typeName members types = .ok (fields, types')) :
    fields.map (·.1) = members.map (·.1) ∧
      (∀ field ∈ fields, childrenNamed field.1 kin ≠ [] →
        Admits types' field.2.2 (childrenNamed field.1 kin)) ∧
      TypeTable.Adds (MemberPlace typeName members) types types' := by
  match members with
  | [] =>
    cases h
    exact ⟨rfl, by simp, fun _ _ => rfl⟩
  | (name, ⟨repeated, element⟩) :: rest =>
    obtain ⟨hfirst, hrest⟩ := List.forall_mem_cons.1 hs
    obtain ⟨hname, hnodup⟩ := List.nodup_cons.1 hnodup
    rw [declareFields] at h
    obtain ⟨⟨kind, types₁⟩, helement, h⟩ := of_bind_eq_ok h
    obtain ⟨⟨fields, types₂⟩, hfields, h⟩ := of_bind_eq_ok h
    cases h
    obtain ⟨hkind, hadds₁⟩ := admits_declareElement hfirst
      (fun n hb => hl n ⟨name, List.mem_cons_self, hb⟩) helement
    -- the names for the other members are still free, as no two members share a place
    have hl₁ : types₁.Lacks (MemberPlace typeName rest) := by
      rintro n ⟨member, hmember, hb⟩
      rw [hadds₁ n fun hb' => ?_]
      · exact hl n ⟨member, List.mem_cons_of_mem _ hmember, hb⟩
      · have hsame := hb'.eq_of_undotted hb (hdots name List.mem_cons_self)
          (hdots member (List.mem_cons_of_mem _ hmember))
        exact hname (hsame ▸ hmember)
    obtain ⟨hnames, hkinds, hadds₂⟩ := admits_declareFields hrest hnodup
      (fun member hmember => hdots member (List.mem_cons_of_mem _ hmember)) hl₁ hfields
    refine ⟨by rw [List.map_cons, List.map_cons, hnames], List.forall_mem_cons.2 ⟨?_, hkinds⟩, ?_⟩
    · exact fun hne => (hkind hne).mono (hadds₂.extends hl₁)
    · intro n hn
      rw [hadds₂ n fun ⟨member, hmember, hb⟩ => hn ⟨member, List.mem_cons_of_mem _ hmember, hb⟩]
      exact hadds₁ n fun hb => hn ⟨name, List.mem_cons_self, hb⟩
termination_by structural members

end

end Shape

end RecordPath
