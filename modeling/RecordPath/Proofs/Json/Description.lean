import RecordPath.Proofs.Json.Homogeneous
import RecordPath.Proofs.Json.Merging

namespace RecordPath

open Json (childrenNamed membersNamed numbers items standing)

namespace JsonNumber

theorem isSome_signed? (n : Int) : (signed? n).isSome = (integer n).isSigned := by
  unfold signed? isSigned
  split <;> simp <;> omega

theorem isSome_unsigned? {n : Int} (h : (integer n).isSigned = false) :
    (unsigned? n).isSome = (integer n).isLarge := by
  unfold isSigned at h
  unfold unsigned? isLarge
  simp only [Bool.and_eq_false_iff, decide_eq_false_iff_not] at h
  split <;> simp <;> omega

theorem isLarge_eq_false {n : JsonNumber} (h : n.isSigned = true) : n.isLarge = false := by
  cases n with
  | integer n =>
    unfold isSigned at h
    unfold isLarge
    simp only [Bool.and_eq_true, decide_eq_true_eq] at h
    simp only [Bool.and_eq_false_iff, decide_eq_false_iff_not]
    omega
  | float x => rfl

theorem all_isLarge_eq_false {ns : List JsonNumber} (hne : ns ≠ [])
    (h : ns.all isSigned = true) : ns.all isLarge = false := by
  cases ns with
  | nil => exact absurd rfl hne
  | cons n ns =>
    rw [List.all_cons, Bool.and_eq_true] at h
    rw [List.all_cons, isLarge_eq_false h.1, Bool.false_and]

end JsonNumber

namespace PlainShape

def ofNumbers (ns : List JsonNumber) : PlainShape :=
  if ns.all JsonNumber.isSigned then int
  else if ns.all JsonNumber.isLarge then uint
  else float

theorem ofNumbers_cases (ns : List JsonNumber) :
    ofNumbers ns = int ∨ ofNumbers ns = uint ∨ ofNumbers ns = float := by
  unfold ofNumbers
  split
  · exact .inl rfl
  · split
    · exact .inr (.inl rfl)
    · exact .inr (.inr rfl)

theorem ofNumber_eq_ofNumbers (n : JsonNumber) : ofNumber n = ofNumbers [n] := by
  rw [ofNumbers, List.all_cons, List.all_cons, List.all_nil, List.all_nil, Bool.and_true,
    Bool.and_true]
  cases n with
  | integer n =>
    rw [ofNumber, JsonNumber.isSome_signed?]
    by_cases hs : (JsonNumber.integer n).isSigned = true
    · rw [if_pos hs, if_pos hs]
    · rw [if_neg hs, if_neg hs, JsonNumber.isSome_unsigned? (Bool.not_eq_true _ ▸ hs)]
  | float x => rfl

/-- Numbers of two lists have the shape together that those of one list would have. -/
theorem join?_ofNumbers {as bs : List JsonNumber} (ha : as ≠ []) (hb : bs ≠ []) :
    (ofNumbers as).join? (ofNumbers bs) = some (ofNumbers (as ++ bs)) := by
  have hla := JsonNumber.all_isLarge_eq_false ha
  have hlb := JsonNumber.all_isLarge_eq_false hb
  unfold ofNumbers
  rw [List.all_append, List.all_append]
  cases hsa : as.all JsonNumber.isSigned <;> cases hsb : bs.all JsonNumber.isSigned <;>
    cases has : as.all JsonNumber.isLarge <;> cases hbs : bs.all JsonNumber.isLarge <;>
    simp_all [join?, isNumber]

def ofKind? (ns : List JsonNumber) : Json.Kind → Option PlainShape
  | .bool => some bool
  | .number => some (ofNumbers ns)
  | .string => some string
  | .object => none

/-- Plain shapes join just if they are of one kind. -/
theorem join?_of_ofKind? {as bs : List JsonNumber} {k l : Json.Kind} {p q : PlainShape}
    (hp : ofKind? as k = some p) (hq : ofKind? bs l = some q)
    (has : k = .number → as ≠ []) (hbs : l = .number → bs ≠ []) :
    p.join? q = if k = l then ofKind? (as ++ bs) k else none := by
  cases k <;> cases l <;> cases hp <;> cases hq
  case number.number => exact join?_ofNumbers (has rfl) (hbs rfl)
  case bool.number | string.number =>
    rcases ofNumbers_cases bs with h | h | h <;> rw [h] <;> rfl
  case number.bool | number.string =>
    rcases ofNumbers_cases as with h | h | h <;> rw [h] <;> rfl
  all_goals rfl

end PlainShape

namespace Shape

structure MemberDescribes (m : Option MemberShape) (js : List Json) : Prop where
  missing : m = none → ∀ j ∈ js, j.isNull = true
  present : ∀ s, m = some s → ∃ j ∈ js, j.isNull = false
  repeated : ∀ s, m = some s → ∀ j ∈ js, j.isNull = false → j.isArray = s.repeated
  empty : m.bind (·.element) = none → js.flatMap items = []

/-- A shape that tells all of what stands at a path: the kind of the values there, and the same of
the members below them. -/
inductive Describes : Shape → List Json → Prop
  | plain {p : PlainShape} {k : Json.Kind} {kin : List Json} (hne : kin ≠ [])
      (hkind : ∀ j ∈ kin, j.kind? = some k) (hp : PlainShape.ofKind? (numbers kin) k = some p) :
      Describes (plain p) kin
  | object {members : List (String × MemberShape)} {kin : List Json} (hne : kin ≠ [])
      (hkind : ∀ j ∈ kin, j.kind? = some .object) (hnodup : (members.map (·.1)).Nodup)
      (hmember : ∀ name, MemberDescribes (members.lookup name) (membersNamed name kin))
      (helement : ∀ name s, elementOf members name = some s →
        Describes s (childrenNamed name kin)) :
      Describes (object members) kin

structure ElementDescribes (known : Option Shape) (kin : List Json) : Prop where
  none : known = none → kin = []
  some : ∀ s, known = some s → s.Describes kin

section Single

variable {j : Json} {s : Shape} {kin : List Json}

theorem elementDescribes_none : ElementDescribes none [] where
  none _ := rfl
  some _ h := nomatch h

theorem elementDescribes_some (h : s.Describes kin) : ElementDescribes (some s) kin where
  none h := nomatch h
  some t ht := by
    cases ht
    exact h

theorem memberDescribes_nil : MemberDescribes none [] where
  missing _ := nofun
  present _ h := nomatch h
  repeated _ h := nomatch h
  empty _ := rfl

theorem memberDescribes_null : MemberDescribes none [.null] where
  missing _ := List.forall_mem_singleton.2 rfl
  present _ h := nomatch h
  repeated _ h := nomatch h
  empty _ := rfl

theorem memberDescribes_some {repeated : Bool} {e : Option Shape} (hnull : j.isNull = false)
    (ha : j.isArray = repeated) (he : e = none → j.items = []) :
    MemberDescribes (some ⟨repeated, e⟩) [j] where
  missing h := nomatch h
  present _ _ := ⟨j, List.mem_singleton_self j, hnull⟩
  repeated s hs := by
    cases hs
    exact List.forall_mem_singleton.2 fun _ => ha
  empty h := by
    rw [List.flatMap_singleton]
    exact he h

theorem describes_alone (hnull : j.isNull = false) (ha : j.isArray = false)
    (hs : s.Describes [j]) :
    MemberDescribes (some ⟨false, some s⟩) [j] ∧ ElementDescribes (some s) j.items := by
  rw [Json.items_eq_singleton hnull ha]
  exact ⟨memberDescribes_some hnull ha (fun h => nomatch h), elementDescribes_some hs⟩

theorem describes_plain {p : PlainShape} {k : Json.Kind} (hk : j.kind? = some k)
    (hp : PlainShape.ofKind? (numbers [j]) k = some p) : (plain p).Describes [j] :=
  .plain (List.cons_ne_nil j []) (List.forall_mem_singleton.2 hk) hp

end Single

section Append

variable {path : String} {as bs : List Json}

theorem MemberDescribes.append {m n c : Option MemberShape} (hm : MemberDescribes m as)
    (hn : MemberDescribes n bs) (h : mergeMember path m n = .ok c) :
    MemberDescribes c (as ++ bs) := by
  obtain ⟨rfl, rfl⟩ | ⟨rfl, rfl⟩ | ⟨m, n, e, rfl, rfl, rfl, hr, he⟩ := of_mergeMember h
  · have hnull := hm.missing rfl
    refine ⟨fun h => List.forall_mem_append.2 ⟨hnull, hn.missing h⟩, fun s hs => ?_,
      fun s hs => List.forall_mem_append.2 ⟨fun j hj hn => ?_, hn.repeated s hs⟩, fun h => ?_⟩
    · obtain ⟨j, hj, hjn⟩ := hn.present s hs
      exact ⟨j, List.mem_append_right as hj, hjn⟩
    · rw [hnull j hj] at hn
      cases hn
    · rw [List.flatMap_append, hm.empty rfl, hn.empty h, List.append_nil]
  · have hnull := hn.missing rfl
    refine ⟨fun h => List.forall_mem_append.2 ⟨hm.missing h, hnull⟩, fun s hs => ?_,
      fun s hs => List.forall_mem_append.2 ⟨hm.repeated s hs, fun j hj hn => ?_⟩, fun h => ?_⟩
    · obtain ⟨j, hj, hjn⟩ := hm.present s hs
      exact ⟨j, List.mem_append_left bs hj, hjn⟩
    · rw [hnull j hj] at hn
      cases hn
    · rw [List.flatMap_append, hm.empty h, hn.empty rfl, List.append_nil]
  · refine ⟨nofun, fun s hs => ?_, fun s hs => ?_, fun h => ?_⟩
    · obtain ⟨j, hj, hjn⟩ := hn.present n rfl
      exact ⟨j, List.mem_append_right as hj, hjn⟩
    · cases hs
      exact List.forall_mem_append.2 ⟨hr ▸ hm.repeated m rfl, hn.repeated n rfl⟩
    · obtain ⟨hm', rfl⟩ | ⟨hn', rfl⟩ | ⟨s, t, u, -, -, rfl, -⟩ := of_mergeElement he
      · rw [List.flatMap_append, hm.empty hm', hn.empty h, List.append_nil]
      · rw [List.flatMap_append, hm.empty h, hn.empty hn', List.append_nil]
      · cases h

theorem ElementDescribes.merge {a b c : Option Shape} (ha : ElementDescribes a as)
    (hb : ElementDescribes b bs) (h : mergeElement path a b = .ok c)
    (happend : ∀ s t u, a = .some s → b = .some t → merge path s t = .ok u →
      u.Describes (as ++ bs)) : ElementDescribes c (as ++ bs) := by
  obtain ⟨rfl, rfl⟩ | ⟨rfl, rfl⟩ | ⟨s, t, u, hs, ht, rfl, hu⟩ := of_mergeElement h
  · rwa [ha.none rfl, List.nil_append]
  · rwa [hb.none rfl, List.append_nil]
  · exact elementDescribes_some (happend s t u hs ht hu)

/-- Where values of one kind stand, the numbers among them are missing only if they are not
numbers. -/
theorem numbers_ne_nil {kin : List Json} {k : Json.Kind} (hne : kin ≠ [])
    (hkind : ∀ j ∈ kin, j.kind? = some k) (hk : k = .number) : numbers kin ≠ [] := by
  subst hk
  cases kin with
  | nil => exact absurd rfl hne
  | cons j rest =>
    have hj := hkind j List.mem_cons_self
    cases j <;> cases hj
    exact List.cons_ne_nil _ _

theorem Describes.element {members : List (String × MemberShape)} {kin : List Json}
    (h : (Shape.object members).Describes kin) (name : String) :
    ElementDescribes (elementOf members name) (childrenNamed name kin) := by
  cases h with
  | object hne hkind hnodup hmember helement =>
    refine ⟨fun h => ?_, helement name⟩
    rw [Json.childrenNamed_eq_flatMap]
    exact (hmember name).empty h

theorem Describes.append {s t u : Shape} (hs : s.Describes as) (ht : t.Describes bs)
    (h : merge path s t = .ok u) : u.Describes (as ++ bs) := by
  induction hs generalizing path t u bs with
  | @plain p k as hne hkind hp =>
    obtain ⟨q, r, rfl, rfl, hr⟩ := of_merge_plain h
    cases ht with
    | @plain _ l _ hne' hkind' hq =>
      rw [PlainShape.join?_of_ofKind? hp hq (numbers_ne_nil hne hkind)
        (numbers_ne_nil hne' hkind')] at hr
      split at hr
      · rename_i hkl
        subst hkl
        refine .plain (List.append_ne_nil_of_left_ne_nil hne bs)
          (List.forall_mem_append.2 ⟨hkind, hkind'⟩) ?_
        rw [Json.numbers_append]
        exact hr
      · cases hr
  | @object ms as hne hkind hnodup hmember helement ih =>
    obtain ⟨ns, us, rfl, rfl, hm⟩ := of_merge_object h
    have helement' := ht.element
    cases ht with
    | object hne' hkind' hnodup' hmember' _ =>
      refine .object (List.append_ne_nil_of_left_ne_nil hne bs)
        (List.forall_mem_append.2 ⟨hkind, hkind'⟩) (nodup_mergeMembers hm hnodup hnodup')
        (fun name => ?_) fun name => ?_
      · rw [Json.membersNamed_append]
        exact (hmember name).append (hmember' name) (lookup_mergeMembers hm hnodup' name)
      · have hname : ElementDescribes (elementOf ms name) (childrenNamed name as) :=
          (Describes.object hne hkind hnodup hmember helement).element name
        rw [Json.childrenNamed_append]
        exact (hname.merge (helement' name) (elementOf_mergeMembers hm hnodup' name)
          fun s t u hs ht hu => ih name s hs ((helement' name).some t ht) hu).some

theorem ElementDescribes.append {a b c : Option Shape} (ha : ElementDescribes a as)
    (hb : ElementDescribes b bs) (h : mergeElement path a b = .ok c) :
    ElementDescribes c (as ++ bs) :=
  ha.merge hb h fun s t _ hs ht hu => (ha.some s hs).append (hb.some t ht) hu

end Append

mutual

theorem describes_ofMember {path : String} {j : Json} {m : Option MemberShape}
    (hj : j.DistinctNames) (h : ofMember path j = .ok m) :
    MemberDescribes m [j] ∧ ElementDescribes (m.bind (·.element)) j.items := by
  match j with
  | .null =>
    cases h
    exact ⟨memberDescribes_null, elementDescribes_none⟩
  | .bool b =>
    cases h
    exact describes_alone rfl rfl (describes_plain rfl rfl)
  | .string s =>
    cases h
    exact describes_alone rfl rfl (describes_plain rfl rfl)
  | .number n =>
    cases h
    have hn := congrArg some (PlainShape.ofNumber_eq_ofNumbers n).symm
    exact describes_alone rfl rfl (describes_plain rfl hn)
  | .object members =>
    rw [ofMember] at h
    obtain ⟨shapes, hs, h⟩ := of_bind_eq_ok h
    cases h
    obtain ⟨hsub, hmembers⟩ := describes_ofMembers hj.member hj.nodup hs
    refine describes_alone rfl rfl (.object (List.cons_ne_nil _ _)
      (List.forall_mem_singleton.2 rfl) (hsub.nodup hj.nodup) (fun name => ?_) fun name => ?_)
    · rw [Json.membersNamed_object]
      exact (hmembers name).1
    · rw [Json.childrenNamed_object]
      exact (hmembers name).2.some
  | .array js =>
    rw [ofMember] at h
    obtain ⟨e, hs, h⟩ := of_bind_eq_ok h
    cases h
    have helement := describes_ofItems hj.item elementDescribes_none hs
    exact ⟨memberDescribes_some rfl rfl helement.none, helement⟩
termination_by structural j

theorem describes_ofItems {path : String} {known e : Option Shape} {seen js : List Json}
    (hjs : ∀ j ∈ js, j.DistinctNames) (hk : ElementDescribes known seen)
    (h : ofItems path known js = .ok e) :
    ElementDescribes e (seen ++ js.filter fun j => !j.isNull) := by
  match js with
  | [] =>
    cases h
    rwa [List.filter_nil, List.append_nil]
  | j :: rest =>
    obtain ⟨hj, hrest⟩ := List.forall_mem_cons.1 hjs
    by_cases ha : ∃ items, j = .array items
    · obtain ⟨items, rfl⟩ := ha
      cases h
    · have ha : ∀ items, j = .array items → False := fun items he => ha ⟨items, he⟩
      rw [ofItems_cons ha] at h
      obtain ⟨m, hm, h⟩ := of_bind_eq_ok h
      obtain ⟨merged, hmerge, h⟩ := of_bind_eq_ok h
      have hall := describes_ofItems hrest (hk.append (describes_ofMember hj hm).2 hmerge) h
      rwa [Json.items_of_ne_array ha, List.append_assoc, ← List.filter_append] at hall
termination_by structural js

theorem describes_ofMembers {path : String} {members : List (String × Json)}
    {shapes : List (String × MemberShape)} (hms : ∀ m ∈ members, m.2.DistinctNames)
    (hn : (members.map (·.1)).Nodup) (h : ofMembers path members = .ok shapes) :
    (shapes.map (·.1)).Sublist (members.map (·.1)) ∧
      ∀ name, MemberDescribes (shapes.lookup name) (members.lookup name).toList ∧
        ElementDescribes (elementOf shapes name) (((members.lookup name).map items).getD []) := by
  match members with
  | [] =>
    cases h
    exact ⟨List.Sublist.refl _, fun name => ⟨memberDescribes_nil, elementDescribes_none⟩⟩
  | (other, j) :: rest =>
    obtain ⟨hj, hrest⟩ := List.forall_mem_cons.1 hms
    obtain ⟨hother, hnodup⟩ := List.nodup_cons.1 hn
    rw [ofMembers] at h
    obtain ⟨m, hm, h⟩ := of_bind_eq_ok h
    have hfirst := describes_ofMember hj hm
    cases m with
    | none =>
      obtain ⟨hsub, hall⟩ := describes_ofMembers hrest hnodup h
      refine ⟨hsub.cons _, fun name => ?_⟩
      by_cases hn : name = other
      · subst hn
        have hmem : name ∉ shapes.map (·.1) := fun h => hother (hsub.subset h)
        rw [elementOf_of_not_mem hmem, Json.lookup_eq_none_iff_not_mem.2 hmem,
          List.lookup_cons_self]
        exact hfirst
      · rw [Json.lookup_cons_of_ne hn]
        exact hall name
    | some m =>
      obtain ⟨shapes, hs, h⟩ := of_bind_eq_ok h
      cases h
      obtain ⟨hsub, hall⟩ := describes_ofMembers hrest hnodup hs
      refine ⟨hsub.cons_cons _, fun name => ?_⟩
      by_cases hn : name = other
      · subst hn
        rw [elementOf_of_lookup List.lookup_cons_self, List.lookup_cons_self,
          List.lookup_cons_self]
        exact hfirst
      · rw [elementOf_cons_of_ne hn, Json.lookup_cons_of_ne hn, Json.lookup_cons_of_ne hn]
        exact hall name
termination_by structural members

end

/-- What the shape of an object tells of it. -/
theorem describes_object {path : String} {members : List (String × Json)}
    {shapes : List (String × MemberShape)} (hdoc : (Json.object members).DistinctNames)
    (h : ofMembers path members = .ok shapes) :
    (object shapes).Describes [.object members] := by
  have hm : ofMember path (.object members) = .ok (some ⟨false, some (object shapes)⟩) := by
    rw [ofMember, h]
    rfl
  exact (describes_ofMember hdoc hm).2.some _ rfl

end Shape

end RecordPath
