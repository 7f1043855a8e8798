import RecordPath.Proofs.Json.Description

namespace RecordPath

open Json (childrenNamed numbers items)

namespace PlainShape

/-- What the shape of numbers says of them: whether they all are signed integers, and whether they
all lie beyond those. -/
def Tells (p : PlainShape) (ns : List JsonNumber) : Prop :=
  p.isNumber = true →
    ns.all JsonNumber.isSigned = (p == int) ∧ ns.all JsonNumber.isLarge = (p == uint)

theorem tells_ofNumbers {ns : List JsonNumber} (hne : ns ≠ []) : (ofNumbers ns).Tells ns := by
  intro _
  unfold ofNumbers
  cases hs : ns.all JsonNumber.isSigned with
  | true =>
    rw [JsonNumber.all_isLarge_eq_false hne hs]
    exact ⟨rfl, rfl⟩
  | false => cases ns.all JsonNumber.isLarge <;> exact ⟨rfl, rfl⟩

theorem tells_of_ofKind? {ns : List JsonNumber} {k : Json.Kind} {p : PlainShape}
    (h : ofKind? ns k = some p) (hne : k = .number → ns ≠ []) : p.Tells ns := by
  cases k with
  | number =>
    cases h
    exact tells_ofNumbers (hne rfl)
  | object => cases h
  | bool | string =>
    cases h
    exact fun hp => nomatch hp

end PlainShape

namespace Shape

/-- What a shape says of all that stands at a path. -/
inductive Tells : Shape → List Json → Prop
  | plain {p : PlainShape} {kin : List Json} (h : p.Tells (numbers kin)) : Tells (plain p) kin
  /-- Where nothing is known of a member, nothing stands there. -/
  | object {members : List (String × MemberShape)} {kin : List Json}
      (hnodup : (members.map (·.1)).Nodup) (hdots : ∀ name ∈ members.map (·.1), '.' ∉ name.toList)
      (hnone : ∀ name, elementOf members name = none → childrenNamed name kin = [])
      (hsome : ∀ name s, elementOf members name = some s → Tells s (childrenNamed name kin)) :
      Tells (object members) kin

structure TellsElement (known : Option Shape) (kin : List Json) : Prop where
  none : known = none → kin = []
  some : ∀ s, known = some s → s.Tells kin

/-- A member of which something is known stands in an object. -/
theorem exists_object_of_mem {members : List (String × MemberShape)} {kin : List Json}
    {name : String} (hname : name ∈ members.map (·.1))
    (hmember : MemberDescribes (members.lookup name) (Json.membersNamed name kin)) :
    ∃ ms, Json.object ms ∈ kin ∧ name ∈ ms.map (·.1) := by
  obtain ⟨m, hm⟩ := Option.ne_none_iff_exists'.1 (mt Json.lookup_eq_none_iff_not_mem.1
    (not_not_intro hname))
  obtain ⟨j, hj, -⟩ := hmember.present m hm
  obtain ⟨ms, hms, hl⟩ := Json.mem_membersNamed.1 hj
  exact ⟨ms, hms, List.mem_map_of_mem (Json.mem_of_lookup hl)⟩

theorem Describes.tells {s : Shape} {kin : List Json} (h : s.Describes kin)
    (hdots : ∀ j ∈ kin, j.Undotted) : s.Tells kin := by
  induction h with
  | plain hne hkind hp => exact .plain (PlainShape.tells_of_ofKind? hp (numbers_ne_nil hne hkind))
  | @object members kin hne hkind hnodup hmember helement ih =>
    refine .object hnodup (fun name hname => ?_) (fun name hno => ?_) fun name s hs => ?_
    · obtain ⟨ms, hms, hname⟩ := exists_object_of_mem hname (hmember name)
      exact hdots _ hms _ (Json.self_mem_within _) name hname
    · rw [Json.childrenNamed_eq_flatMap]
      exact (hmember name).empty hno
    · refine ih name s hs fun j hj => ?_
      obtain ⟨i, hi, hj⟩ := Json.mem_childrenNamed.1 hj
      obtain ⟨ms, hms, hl⟩ := Json.mem_membersNamed.1 hi
      have hwithin : j.within ⊆ (Json.object ms).within := List.Subset.trans
        (Json.within_of_mem_items hj) (Json.within_member (Json.mem_of_lookup hl))
      exact fun k hk => hdots _ hms k (hwithin hk)

theorem ElementDescribes.tells {known : Option Shape} {kin : List Json}
    (h : ElementDescribes known kin) (hdots : ∀ j ∈ kin, j.Undotted) : TellsElement known kin where
  none := h.none
  some s hs := (h.some s hs).tells hdots

theorem tells_ofMembers {path : String} {members : List (String × Json)}
    {shapes : List (String × MemberShape)} (hms : ∀ m ∈ members, m.2.Regular)
    (hn : (members.map (·.1)).Nodup) (h : ofMembers path members = .ok shapes) :
    (shapes.map (·.1)).Sublist (members.map (·.1)) ∧
      ∀ name, TellsElement (elementOf shapes name) (((members.lookup name).map items).getD []) := by
  obtain ⟨hsub, hall⟩ := describes_ofMembers (fun m hm => (hms m hm).distinctNames) hn h
  refine ⟨hsub, fun name => (hall name).2.tells fun i hi => ?_⟩
  cases hl : members.lookup name with
  | none =>
    rw [hl] at hi
    cases hi
  | some j =>
    rw [hl] at hi
    have hj := hms _ (Json.mem_of_lookup hl)
    exact fun k hk => hj.undotted k (Json.within_of_mem_items hi hk)

end Shape

end RecordPath
