import RecordPath.Proofs.Json.Coverage
import RecordPath.Proofs.Json.Declaration

namespace RecordPath

open Json (lookup_cons_of_ne lookup_eq_some_iff_mem mem_of_lookup)

theorem MessageType.firstRepeat?_eq_none {seen names : List String} (hn : names.Nodup)
    (hs : ∀ s ∈ names, s ∉ seen) : firstRepeat? seen names = none := by
  induction names generalizing seen with
  | nil => rfl
  | cons s rest ih =>
    obtain ⟨hs', hrest⟩ := List.nodup_cons.1 hn
    rw [firstRepeat?, if_neg (hs s List.mem_cons_self)]
    refine ih hrest fun t ht hmem => ?_
    rcases List.mem_cons.1 hmem with rfl | hmem
    · exact hs' ht
    · exact hs t (List.mem_cons_of_mem _ ht) hmem

/-- A type with different names of fields can be declared, and has them all. -/
theorem MessageType.exists_declare (name : String)
    {fields : List (String × Cardinality × FieldKind)} (hn : (fields.map (·.1)).Nodup) :
    ∃ t, declare name fields = .ok t ∧ t.name = name ∧ ∀ field ∈ fields,
      ∃ f, t.field? field.1 = some f ∧ f.cardinality = field.2.1 ∧ f.kind = field.2.2 := by
  obtain ⟨t, ht, hname⟩ : ∃ t, declare name fields = .ok t ∧ t.name = name := by
    unfold declare
    split
    · rename_i field h
      rw [firstRepeat?_eq_none hn fun _ _ => List.not_mem_nil] at h
      cases h
    · exact ⟨_, rfl, rfl⟩
  refine ⟨t, ht, hname, fun field hfield => ?_⟩
  obtain ⟨hnone, hsome⟩ := field?_of_declare ht field.1
  cases hf : t.field? field.1 with
  | none => exact absurd (List.mem_map.2 ⟨field, hfield, rfl⟩) (hnone hf)
  | some f =>
    have hsame : (field.1, f.cardinality, f.kind) = field :=
      List.inj_on_of_nodup_map hn (hsome f hf) hfield rfl
    exact ⟨f, rfl, congrArg (·.2.1) hsame, congrArg (·.2.2) hsame⟩

namespace Shape

mutual

/-- The names of the types for the objects of a shape that stands at a path. -/
def typeNames (path : String) : Shape → List String
  | plain _ => []
  | object members => path :: memberTypeNames path members
termination_by structural s => s

def elementTypeNames (path : String) : Option Shape → List String
  | none => []
  | some s => typeNames path s
termination_by structural s => s

def memberTypeNames (path : String) : List (String × MemberShape) → List String
  | [] => []
  | (name, ⟨_, element⟩) :: rest =>
    elementTypeNames (memberPath path name) element ++ memberTypeNames path rest
termination_by structural members => members

end

def kindOf (path : String) : Option Shape → FieldKind
  | none => .string
  | some (plain p) => p.kind
  | some (object _) => .message path

/-- A message type for the object of these members at a path. -/
structure Serves (t : MessageType) (path : String) (members : List (String × MemberShape)) :
    Prop where
  name : t.name = path
  field : ∀ name m, members.lookup name = some m → ∃ f, t.field? name = some f ∧
    f.cardinality = cardinality m.repeated ∧ f.kind = kindOf (memberPath path name) m.element

/-- A table with a type for every object of the shape at a path. -/
inductive Declares (types : TypeTable) : String → Shape → Prop
  | plain (path : String) (p : PlainShape) : Declares types path (plain p)
  | object {path : String} {members : List (String × MemberShape)} {t : MessageType}
      (ht : types.lookup path = some t) (hserves : Serves t path members)
      (h : ∀ name s, elementOf members name = some s → Declares types (memberPath path name) s) :
      Declares types path (object members)

theorem Declares.mono {types types' : TypeTable} {path : String} {s : Shape}
    (h : Declares types path s) (hx : types.Extends types') : Declares types' path s := by
  induction h with
  | plain path p => exact .plain path p
  | object ht hserves _ ih => exact .object (hx _ _ ht) hserves ih

def fieldsOf (path : String) (members : List (String × MemberShape)) :
    List (String × Cardinality × FieldKind) :=
  members.map fun m => (m.1, cardinality m.2.repeated, kindOf (memberPath path m.1) m.2.element)

theorem map_fst_fieldsOf (path : String) (members : List (String × MemberShape)) :
    (fieldsOf path members).map (·.1) = members.map (·.1) := by
  rw [fieldsOf, List.map_map]
  rfl

section Object

variable {typeName : String} {members : List (String × MemberShape)} {types types₁ : TypeTable}

theorem exists_enter (hd : (object members).Distinct)
    (hn : (typeNames typeName (object members)).Nodup)
    (hl : types.Lacks (· ∈ typeNames typeName (object members)))
    (hadds : TypeTable.Adds (· ∈ memberTypeNames typeName members) types types₁)
    (hmembers : ∀ m ∈ members, ∀ s, m.2.element = some s →
      Declares types₁ (memberPath typeName m.1) s) :
    ∃ t, enter typeName (fieldsOf typeName members) types₁ = .ok (t, (typeName, t) :: types₁) ∧
      Serves t typeName members ∧
      Declares ((typeName, t) :: types₁) typeName (object members) ∧
      TypeTable.Adds (· ∈ typeNames typeName (object members)) types
        ((typeName, t) :: types₁) := by
  have hnames : ((fieldsOf typeName members).map (·.1)).Nodup := by
    rw [map_fst_fieldsOf]
    exact hd.nodup
  obtain ⟨t, ht, hname, hfields⟩ := MessageType.exists_declare typeName hnames
  rw [typeNames, List.nodup_cons] at hn
  have hext : types₁.Extends ((typeName, t) :: types₁) := by
    intro name u hu
    have hne : name ≠ typeName := by
      rintro rfl
      rw [hadds name hn.1, hl name List.mem_cons_self] at hu
      cases hu
    rw [lookup_cons_of_ne hne, hu]
  have hserves : Serves t typeName members :=
    ⟨hname, fun name m hm => hfields _ (List.mem_map.2 ⟨_, mem_of_lookup hm, rfl⟩)⟩
  refine ⟨t, by rw [enter, ht]; rfl, hserves, .object List.lookup_cons_self hserves ?_, ?_⟩
  · intro name s hs
    obtain ⟨m, hm, hs⟩ := Option.bind_eq_some_iff.1 hs
    exact (hmembers _ (mem_of_lookup hm) s hs).mono hext
  · intro name hname
    obtain ⟨hne, hname⟩ := not_or.1 (mt List.mem_cons.2 hname)
    rw [lookup_cons_of_ne hne, hadds name hname]

end Object

mutual

/-- Declaring a shape whose objects have different names for their types. -/
theorem exists_declare {typeName : String} {s : Shape} {types : TypeTable} (hs : s.Distinct)
    (hn : (typeNames typeName s).Nodup) (hl : types.Lacks (· ∈ typeNames typeName s)) :
    ∃ types', declare typeName s types = .ok (kindOf typeName (some s), types') ∧
      Declares types' typeName s ∧
      TypeTable.Adds (· ∈ typeNames typeName s) types types' := by
  match s with
  | .plain p => exact ⟨types, rfl, .plain _ p, fun _ _ => rfl⟩
  | .object members =>
    have hn' := hn
    rw [typeNames, List.nodup_cons] at hn'
    obtain ⟨types₁, hfields, hmembers, hadds⟩ := exists_declareFields
      (fun m hm s he => hs.element hm he) hn'.2 fun name h => hl name (List.mem_cons_of_mem _ h)
    obtain ⟨t, henter, -, hdecl, hadds'⟩ := exists_enter hs hn hl hadds hmembers
    refine ⟨(typeName, t) :: types₁, ?_, hdecl, hadds'⟩
    rw [declare, hfields]
    change (enter typeName (fieldsOf typeName members) types₁ >>= _) = _
    rw [henter]
    rfl
termination_by structural s

theorem exists_declareElement {typeName : String} {known : Option Shape} {types : TypeTable}
    (hs : ∀ s, known = some s → s.Distinct) (hn : (elementTypeNames typeName known).Nodup)
    (hl : types.Lacks (· ∈ elementTypeNames typeName known)) :
    ∃ types', declareElement typeName known types = .ok (kindOf typeName known, types') ∧
      (∀ s, known = some s → Declares types' typeName s) ∧
      TypeTable.Adds (· ∈ elementTypeNames typeName known) types types' := by
  match known with
  | none => exact ⟨types, rfl, nofun, fun _ _ => rfl⟩
  | some s =>
    obtain ⟨types', hok, hdecl, hadds⟩ := exists_declare (hs s rfl) hn hl
    exact ⟨types', hok, fun _ he => Option.some.inj he ▸ hdecl, hadds⟩
termination_by structural known

theorem exists_declareFields {typeName : String} {members : List (String × MemberShape)}
    {types : TypeTable} (hs : ∀ m ∈ members, ∀ s, m.2.element = some s → s.Distinct)
    (hn : (memberTypeNames typeName members).Nodup)
    (hl : types.Lacks (· ∈ memberTypeNames typeName members)) :
    ∃ types', declareFields typeName members types = .ok (fieldsOf typeName members, types') ∧
      (∀ m ∈ members, ∀ s, m.2.element = some s →
        Declares types' (memberPath typeName m.1) s) ∧
      TypeTable.Adds (· ∈ memberTypeNames typeName members) types types' := by
  match members with
  | [] => exact ⟨types, rfl, nofun, fun _ _ => rfl⟩
  | (name, ⟨repeated, element⟩) :: rest =>
    obtain ⟨hfirst, hrest⟩ := List.forall_mem_cons.1 hs
    rw [memberTypeNames] at hn hl ⊢
    obtain ⟨hnfirst, hnrest, hdisjoint⟩ := List.nodup_append.1 hn
    obtain ⟨types₁, helement, hdecl, hadds₁⟩ := exists_declareElement hfirst hnfirst
      fun n hmem => hl n (List.mem_append_left _ hmem)
    have hl₁ : types₁.Lacks (· ∈ memberTypeNames typeName rest) := by
      intro n hmem
      rw [hadds₁ n fun h => hdisjoint n h n hmem rfl]
      exact hl n (List.mem_append_right _ hmem)
    obtain ⟨types₂, hfields, hdecls, hadds₂⟩ := exists_declareFields hrest hnrest hl₁
    refine ⟨types₂, ?_, List.forall_mem_cons.2 ⟨fun s he => ?_, hdecls⟩, fun n hmem => ?_⟩
    · rw [declareFields, helement]
      change (declareFields typeName rest types₁ >>= _) = _
      rw [hfields]
      rfl
    · exact (hdecl s he).mono (hadds₂.extends hl₁)
    · obtain ⟨hfirst, hrest⟩ := not_or.1 (mt List.mem_append.2 hmem)
      rw [hadds₂ n hrest, hadds₁ n hfirst]
termination_by structural members

end

end Shape

end RecordPath
