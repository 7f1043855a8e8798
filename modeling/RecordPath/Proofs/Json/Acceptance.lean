import RecordPath.Proofs.Json.Description

namespace RecordPath

open Json (Alike childrenNamed items membersNamed numbers standing)

namespace Json

theorem flat_of_alone {j : Json} (h : j.within = [j]) (ha : j.isArray = false) : j.Flat := by
  intro js hjs
  rw [h, List.mem_singleton] at hjs
  subst hjs
  cases ha

theorem flat_array {js : List Json} (h : ∀ j ∈ js, j.isArray = false ∧ j.Flat) :
    (array js).Flat := by
  intro ks hks is his
  obtain hks | ⟨j, hj, hks⟩ := mem_within_array.1 hks
  · cases hks
    cases (h _ his).1
  · exact (h j hj).2 ks hks is his

theorem flat_object {members : List (String × Json)} (h : ∀ m ∈ members, m.2.Flat) :
    (object members).Flat := by
  intro ks hks
  obtain hks | ⟨m, hm, hks⟩ := mem_within_object.1 hks
  · cases hks
  · exact h m hm ks hks

theorem Flat.item {js : List Json} (h : (array js).Flat) :
    ∀ j ∈ js, j.isArray = false ∧ j.Flat := by
  intro j hj
  refine ⟨?_, h.mono (within_item hj)⟩
  rw [Bool.eq_false_iff]
  intro ha
  obtain ⟨is, rfl⟩ := exists_of_isArray ha
  exact h js (self_mem_within _) is hj

theorem Alike.member {members : List (String × Json)} (h : Alike [object members])
    (hdoc : (object members).DistinctNames) : ∀ m ∈ members, Alike m.2.items := by
  intro m hm
  have hsub : m.2.items ⊆ childrenNamed m.1 [object members] :=
    items_subset_childrenNamed (List.mem_singleton_self _) hdoc.nodup hm
  exact (h.child m.1).mono hsub

end Json

namespace Shape

section Alike

variable {s : Shape} {kin : List Json}

theorem Describes.ne_nil (h : s.Describes kin) : kin ≠ [] := by
  cases h <;> assumption

theorem membersNamed_eq_nil {p : PlainShape} (h : (plain p).Describes kin) (name : String) :
    membersNamed name kin = [] := by
  cases h with
  | @plain _ k _ hne hkind hp =>
    rw [List.eq_nil_iff_forall_not_mem]
    intro j hj
    obtain ⟨members, hmem, -⟩ := Json.mem_membersNamed.1 hj
    cases hkind _ hmem
    cases hp

theorem Describes.exists_member (h : s.Describes kin) (name : String) :
    ∃ m, MemberDescribes m (membersNamed name kin) := by
  cases s with
  | plain p =>
    rw [membersNamed_eq_nil h]
    exact ⟨none, memberDescribes_nil⟩
  | object members =>
    cases h with
    | object hne hkind hnodup hmember helement => exact ⟨_, hmember name⟩

theorem Describes.exists_element (h : s.Describes kin) (name : String) :
    ∃ known, ElementDescribes known (childrenNamed name kin) := by
  cases s with
  | plain p =>
    rw [Json.childrenNamed_eq_flatMap, membersNamed_eq_nil h]
    exact ⟨none, elementDescribes_none⟩
  | object members => exact ⟨_, h.element name⟩

theorem Describes.kind_eq (h : s.Describes kin) : ∃ k, ∀ j ∈ kin, j.kind? = some k := by
  cases h with
  | plain hne hkind hp => exact ⟨_, hkind⟩
  | object hne hkind => exact ⟨_, hkind⟩

/-- What stands at a path below described values is described, if anything stands there. -/
theorem Describes.standing (h : s.Describes kin) (path : List String) :
    standing kin path = [] ∨ ∃ t : Shape, t.Describes (standing kin path) := by
  induction path generalizing s kin with
  | nil => exact .inr ⟨s, h⟩
  | cons name path ih =>
    rw [Json.standing]
    obtain ⟨known, hknown⟩ := h.exists_element name
    cases known with
    | none =>
      rw [hknown.none rfl]
      exact .inl (Json.standing_nil path)
    | some t => exact ih (hknown.some t rfl)

theorem Describes.alike (h : s.Describes kin) : Alike kin where
  lists path name i hi j hj hin hjn := by
    obtain hnil | ⟨t, ht⟩ := h.standing path
    · rw [hnil] at hi
      cases hi
    · obtain ⟨m, hm⟩ := ht.exists_member name
      cases m with
      | none =>
        rw [hm.missing rfl i hi] at hin
        cases hin
      | some m => rw [hm.repeated m rfl i hi hin, hm.repeated m rfl j hj hjn]
  kinds path i hi j hj k l hk hl := by
    obtain hnil | ⟨t, ht⟩ := h.standing path
    · rw [hnil] at hi
      cases hi
    · obtain ⟨k', hk'⟩ := ht.kind_eq
      rw [hk' i hi] at hk
      rw [hk' j hj] at hl
      exact Option.some.inj (hk.symm.trans hl)

end Alike

section Flat

mutual

/-- No array in a value that has a shape is an item of an array. -/
theorem flat_of_ofMember {path : String} {j : Json} {m : Option MemberShape}
    (h : ofMember path j = .ok m) : j.Flat := by
  match j with
  | .null | .bool _ | .string _ | .number _ => exact Json.flat_of_alone rfl rfl
  | .object members =>
    rw [ofMember] at h
    obtain ⟨shapes, hs, -⟩ := of_bind_eq_ok h
    exact Json.flat_object (flat_of_ofMembers hs)
  | .array js =>
    rw [ofMember] at h
    obtain ⟨e, hs, -⟩ := of_bind_eq_ok h
    exact Json.flat_array (flat_of_ofItems hs)
termination_by structural j

theorem flat_of_ofItems {path : String} {known e : Option Shape} {js : List Json}
    (h : ofItems path known js = .ok e) : ∀ j ∈ js, j.isArray = false ∧ j.Flat := by
  match js with
  | [] => exact nofun
  | j :: rest =>
    by_cases ha : ∃ items, j = .array items
    · obtain ⟨items, rfl⟩ := ha
      cases h
    · rw [ofItems_cons fun items he => ha ⟨items, he⟩] at h
      obtain ⟨m, hm, h⟩ := of_bind_eq_ok h
      obtain ⟨merged, -, h⟩ := of_bind_eq_ok h
      refine List.forall_mem_cons.2 ⟨⟨?_, flat_of_ofMember hm⟩, flat_of_ofItems h⟩
      rw [Bool.eq_false_iff]
      exact fun hj => ha (Json.exists_of_isArray hj)
termination_by structural js

theorem flat_of_ofMembers {path : String} {members : List (String × Json)}
    {shapes : List (String × MemberShape)} (h : ofMembers path members = .ok shapes) :
    ∀ m ∈ members, m.2.Flat := by
  match members with
  | [] => exact nofun
  | (name, j) :: rest =>
    rw [ofMembers] at h
    obtain ⟨m, hm, h⟩ := of_bind_eq_ok h
    refine List.forall_mem_cons.2 ⟨flat_of_ofMember hm, ?_⟩
    cases m with
    | none => exact flat_of_ofMembers h
    | some m =>
      obtain ⟨shapes, hs, -⟩ := of_bind_eq_ok h
      exact flat_of_ofMembers hs
termination_by structural members

end

end Flat

section Merging

variable {path : String} {as bs : List Json}

theorem not_alike_of_plain {p : PlainShape} {members : List (String × MemberShape)}
    (hp : (plain p).Describes as) (hm : (object members).Describes bs) : ¬ Alike (as ++ bs) := by
  intro h
  cases hp with
  | @plain _ k _ hne hkind hp =>
    cases hm with
    | object hne' hkind' =>
      obtain ⟨i, hi⟩ := List.exists_mem_of_ne_nil as hne
      obtain ⟨j, hj⟩ := List.exists_mem_of_ne_nil bs hne'
      have hk := h.kinds [] i (List.mem_append_left bs hi) j (List.mem_append_right as hj) k .object
        (hkind i hi) (hkind' j hj)
      subst hk
      cases hp

theorem exists_mergeElement {a b : Option Shape}
    (h : ∀ s t, a = some s → b = some t → ∃ u, merge path s t = .ok u) :
    ∃ c, mergeElement path a b = .ok c := by
  cases a with
  | none => exact ⟨b, none_mergeElement path b⟩
  | some s =>
    cases b with
    | none => exact ⟨some s, mergeElement_none path _⟩
    | some t =>
      obtain ⟨u, hu⟩ := h s t rfl rfl
      refine ⟨some u, ?_⟩
      rw [mergeElement, hu]
      rfl

/-- Shapes of values that are alike have a shape together. -/
theorem exists_merge {s t : Shape} (hs : s.Describes as) (ht : t.Describes bs)
    (h : Alike (as ++ bs)) : ∃ u, merge path s t = .ok u := by
  induction hs generalizing path t bs with
  | @plain p k as hne hkind hp =>
    cases t with
    | object members => exact absurd h (not_alike_of_plain (.plain hne hkind hp) ht)
    | plain q =>
      cases ht with
      | @plain _ l _ hne' hkind' hq =>
        obtain ⟨i, hi⟩ := List.exists_mem_of_ne_nil as hne
        obtain ⟨j, hj⟩ := List.exists_mem_of_ne_nil bs hne'
        have hkl : k = l := h.kinds [] i (List.mem_append_left bs hi) j
          (List.mem_append_right as hj) k l (hkind i hi) (hkind' j hj)
        have hr := PlainShape.join?_of_ofKind? hp hq (numbers_ne_nil hne hkind)
          (numbers_ne_nil hne' hkind')
        rw [if_pos hkl] at hr
        rw [merge, hr]
        cases k with
        | object => cases hp
        | _ => exact ⟨_, rfl⟩
  | @object ms as hne hkind hnodup hmember helement ih =>
    cases t with
    | plain q =>
      exact absurd (h.mono (List.perm_append_comm.subset))
        (not_alike_of_plain ht (.object hne hkind hnodup hmember helement))
    | object ns =>
      have helement' := ht.element
      cases ht with
      | object hne' hkind' hnodup' hmember' _ =>
        obtain ⟨us, hus⟩ : ∃ us, mergeMembers path ms ns = .ok us := by
          refine exists_mergeMembers (fun name => ?_) hnodup'
          cases hm : ms.lookup name with
          | none => exact ⟨_, none_mergeMember _ _⟩
          | some m =>
            cases hn : ns.lookup name with
            | none => exact ⟨_, mergeMember_none _ _⟩
            | some n =>
              obtain ⟨i, hi, hin⟩ := (hmember name).present m hm
              obtain ⟨j, hj, hjn⟩ := (hmember' name).present n hn
              have hrepeated : m.repeated = n.repeated := by
                rw [← (hmember name).repeated m hm i hi hin,
                  ← (hmember' name).repeated n hn j hj hjn]
                refine h.lists [] name i ?_ j ?_ hin hjn <;>
                  rw [standing, Json.membersNamed_append]
                · exact List.mem_append_left _ hi
                · exact List.mem_append_right _ hj
              have hchild := h.child name
              rw [Json.childrenNamed_append] at hchild
              obtain ⟨e, he⟩ := exists_mergeElement fun s t hs ht =>
                ih name s ((elementOf_of_lookup hm).trans hs)
                  ((helement' name).some t ((elementOf_of_lookup hn).trans ht)) hchild
              exact ⟨_, mergeMember_some hrepeated he⟩
        rw [merge, hus]
        exact ⟨_, rfl⟩

end Merging

section Existence

mutual

/-- A value has a shape if all that stands below it is alike. -/
theorem exists_ofMember {path : String} {j : Json} (hj : j.DistinctNames) (hflat : j.Flat)
    (h : Alike j.items) : ∃ m, ofMember path j = .ok m := by
  match j with
  | .null | .bool _ | .string _ | .number _ => exact ⟨_, rfl⟩
  | .object members =>
    obtain ⟨shapes, hs⟩ : ∃ shapes, ofMembers path members = .ok shapes :=
      exists_ofMembers hj.member (fun m hm => hflat.mono (Json.within_member hm)) (h.member hj)
    refine ⟨some ⟨false, some (object shapes)⟩, ?_⟩
    rw [ofMember, hs]
    rfl
  | .array js =>
    obtain ⟨e, he⟩ : ∃ e, ofItems path none js = .ok e :=
      exists_ofItems hj.item hflat.item elementDescribes_none h
    refine ⟨some ⟨true, e⟩, ?_⟩
    rw [ofMember, he]
    rfl
termination_by structural j

theorem exists_ofItems {path : String} {known : Option Shape} {seen js : List Json}
    (hjs : ∀ j ∈ js, j.DistinctNames) (hflat : ∀ j ∈ js, j.isArray = false ∧ j.Flat)
    (hk : ElementDescribes known seen) (h : Alike (seen ++ js.filter fun j => !j.isNull)) :
    ∃ e, ofItems path known js = .ok e := by
  match js with
  | [] => exact ⟨known, rfl⟩
  | j :: rest =>
    obtain ⟨hj, hrest⟩ := List.forall_mem_cons.1 hjs
    obtain ⟨⟨ha, hf⟩, hflat⟩ := List.forall_mem_cons.1 hflat
    have ha : ∀ items, j = .array items → False := by
      rintro items rfl
      cases ha
    rw [← List.singleton_append, List.filter_append, ← Json.items_of_ne_array ha,
      ← List.append_assoc] at h
    have hboth : Alike (seen ++ j.items) := h.mono (List.subset_append_left _ _)
    obtain ⟨m, hm⟩ := exists_ofMember hj hf (hboth.mono (List.subset_append_right seen _))
    obtain ⟨-, hdescribes⟩ := describes_ofMember hj hm
    obtain ⟨merged, hmerged⟩ := exists_mergeElement fun s t hs ht =>
      exists_merge (hk.some s hs) (hdescribes.some t ht) hboth
    obtain ⟨e, he⟩ := exists_ofItems hrest hflat (hk.append hdescribes hmerged) h
    refine ⟨e, ?_⟩
    rw [ofItems_cons ha, hm]
    change (mergeElement path known (m.bind (·.element)) >>= fun merged =>
      ofItems path merged rest) = _
    rw [hmerged]
    exact he
termination_by structural js

theorem exists_ofMembers {path : String} {members : List (String × Json)}
    (hms : ∀ m ∈ members, m.2.DistinctNames) (hflat : ∀ m ∈ members, m.2.Flat)
    (h : ∀ m ∈ members, Alike m.2.items) : ∃ shapes, ofMembers path members = .ok shapes := by
  match members with
  | [] => exact ⟨[], rfl⟩
  | (name, j) :: rest =>
    obtain ⟨hj, hms⟩ := List.forall_mem_cons.1 hms
    obtain ⟨hf, hflat⟩ := List.forall_mem_cons.1 hflat
    obtain ⟨ha, h⟩ := List.forall_mem_cons.1 h
    obtain ⟨m, hm⟩ := exists_ofMember hj hf ha
    obtain ⟨shapes, hs⟩ := exists_ofMembers hms hflat h
    rw [ofMembers, hm]
    cases m with
    | none => exact ⟨shapes, hs⟩
    | some m =>
      refine ⟨(name, m) :: shapes, ?_⟩
      change ((ofMembers path rest) >>= fun shapes => _) = _
      rw [hs]
      rfl
termination_by structural members

end

end Existence

theorem exists_ofMembers_iff {path : String} {members : List (String × Json)}
    (hdoc : (Json.object members).DistinctNames) :
    (∃ shapes, ofMembers path members = .ok shapes) ↔ (Json.object members).Homogeneous := by
  constructor
  · rintro ⟨shapes, h⟩
    exact ⟨Json.flat_object (flat_of_ofMembers h), (describes_object hdoc h).alike⟩
  · rintro ⟨hflat, halike⟩
    exact exists_ofMembers hdoc.member (fun m hm => hflat.mono (Json.within_member hm))
      (halike.member hdoc)

def memberAt : Shape → List String → Option MemberShape
  | object members, [name] => members.lookup name
  | object members, name :: path => (elementOf members name).bind fun s => s.memberAt path
  | _, _ => none

section MemberAt

variable {s : Shape} {kin : List Json}

theorem memberAt_plain (p : PlainShape) (path : List String) : (plain p).memberAt path = none := by
  rw [memberAt] <;> nofun

theorem memberAt_nil (s : Shape) : s.memberAt [] = none := by rw [memberAt] <;> nofun

theorem memberAt_object {members : List (String × MemberShape)} {name : String}
    {path : List String} (hp : path ≠ []) :
    (object members).memberAt (name :: path) =
      (elementOf members name).bind fun s => s.memberAt path := by
  cases path with
  | nil => exact absurd rfl hp
  | cons other path => rw [memberAt]; nofun

theorem Describes.memberAt (h : s.Describes kin) {path : List String} (hp : path ≠ []) :
    ElementDescribes ((s.memberAt path).bind (·.element)) (Json.standing kin path) := by
  induction path generalizing s kin with
  | nil => exact absurd rfl hp
  | cons name path ih =>
    cases s with
    | plain p =>
      rw [memberAt_plain, Json.standing, Json.childrenNamed_eq_flatMap, membersNamed_eq_nil h]
      exact (Json.standing_nil path).symm ▸ elementDescribes_none
    | object members =>
      by_cases hpath : path = []
      · subst hpath
        exact h.element name
      · rw [memberAt_object hpath, Json.standing]
        have helement := h.element name
        cases he : elementOf members name with
        | none =>
          rw [helement.none he, Json.standing_nil]
          exact elementDescribes_none
        | some t => exact ih (helement.some t he) hpath

/-- The shape of numbers is that which they have together. -/
theorem eq_ofNumbers_of_describes (h : s.Describes kin) (hne : numbers kin ≠ []) :
    s = plain (.ofNumbers (numbers kin)) := by
  obtain ⟨n, hn⟩ := List.exists_mem_of_ne_nil _ hne
  obtain ⟨j, hj, hjn⟩ := List.mem_filterMap.1 hn
  have hj' : j = .number n := by
    cases j <;> cases hjn
    rfl
  cases h with
  | plain hne hkind hp =>
    have hk := hkind j hj
    rw [hj'] at hk
    cases hk
    cases hp
    rfl
  | object hne hkind =>
    have hk := hkind j hj
    rw [hj'] at hk
    cases hk

end MemberAt

end Shape

end RecordPath
