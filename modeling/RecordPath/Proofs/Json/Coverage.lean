import RecordPath.Json.Conversion
import RecordPath.Proofs.Json.Inference

namespace RecordPath

open Json (lookup_cons_of_ne lookup_eq_none_iff_not_mem lookup_eq_some_iff_mem
  mem_of_lookup)

theorem PlainShape.of_plainValue? {p : PlainShape} (hp : p.isNumber = true) {j : Json} {v : Value}
    (h : Json.plainValue? p.kind j = some v) : ∃ n, j = .number n := by
  cases j with
  | number n => exact ⟨n, rfl⟩
  | _ => cases p <;> first | (cases hp; done) | cases h

/-- What either of two plain kinds takes over, their common kind does too. -/
theorem PlainShape.exists_plainValue? {p q r s : PlainShape} (h : p.join? q = some r)
    (hs : s = p ∨ s = q) {j : Json} {v : Value} (hv : Json.plainValue? s.kind j = some v) :
    ∃ w, Json.plainValue? r.kind j = some w := by
  unfold join? at h
  split at h
  · rename_i hpq
    cases h
    obtain rfl | rfl := hs
    · exact ⟨v, hv⟩
    · exact ⟨v, hpq ▸ hv⟩
  · split at h
    · rename_i hnumbers
      cases h
      rw [Bool.and_eq_true] at hnumbers
      have hnumber : s.isNumber = true := by
        obtain rfl | rfl := hs
        exacts [hnumbers.1, hnumbers.2]
      obtain ⟨n, rfl⟩ := of_plainValue? hnumber hv
      cases n <;> exact ⟨_, rfl⟩
    · cases h

namespace Shape

inductive Distinct : Shape → Prop
  | plain (p : PlainShape) : Distinct (plain p)
  | object {members : List (String × MemberShape)} (hnodup : (members.map (·.1)).Nodup)
      (h : ∀ name s, elementOf members name = some s → Distinct s) : Distinct (object members)

section Distinct

variable {members : List (String × MemberShape)}

theorem Distinct.nodup (h : (Shape.object members).Distinct) : (members.map (·.1)).Nodup := by
  cases h
  assumption

theorem Distinct.element (h : (Shape.object members).Distinct) {m : String × MemberShape}
    (hm : m ∈ members) {s : Shape} (hs : m.2.element = some s) : s.Distinct := by
  cases h with
  | object hnodup h =>
    exact h m.1 s ((elementOf_of_lookup ((lookup_eq_some_iff_mem hnodup).2 hm)).trans hs)

end Distinct

/-- A shape that has room for a value. It has a place for every member of an object, with room for
what stands there. -/
inductive Covers : Shape → Json → Prop
  | plain {p : PlainShape} {j : Json} {v : Value} (h : Json.plainValue? p.kind j = some v) :
      Covers (plain p) j
  | object {shapes : List (String × MemberShape)} {members : List (String × Json)}
      (hplaces : ∀ m ∈ members, m.2.isNull = false →
        ∃ s, shapes.lookup m.1 = some s ∧ s.repeated = m.2.isArray)
      (hnone : ∀ m ∈ members, elementOf shapes m.1 = none → m.2.items = [])
      (hsome : ∀ m ∈ members, ∀ s, elementOf shapes m.1 = some s → ∀ j ∈ m.2.items, Covers s j) :
      Covers (object shapes) (.object members)

section Merging

variable {path name : String} {s t u : Shape} {j : Json}

/-- A shape that has room for whatever another has room for. -/
def Within (s u : Shape) : Prop := ∀ j, s.Covers j → u.Covers j

/-- An object has room for what one has room for that has the same places and less in them. -/
theorem within_object {as cs : List (String × MemberShape)}
    (hplaces : ∀ name a, as.lookup name = some a →
      ∃ c, cs.lookup name = some c ∧ c.repeated = a.repeated)
    (h : ∀ name s, elementOf as name = some s → ∃ u, elementOf cs name = some u ∧ s.Within u) :
    (object as).Within (object cs) := by
  intro j hj
  cases hj with
  | object hp hnone hsome =>
    refine .object (fun m hm hnull => ?_) (fun m hm hno => hnone m hm ?_) fun m hm u hu j hj => ?_
    · obtain ⟨a, ha, hrep⟩ := hp m hm hnull
      obtain ⟨c, hc, hrep'⟩ := hplaces m.1 a ha
      exact ⟨c, hc, hrep'.trans hrep⟩
    · rw [Option.eq_none_iff_forall_not_mem]
      intro s hs
      obtain ⟨u, hu, -⟩ := h m.1 s hs
      rw [hno] at hu
      cases hu
    · cases hs : elementOf as m.1 with
      | none =>
        rw [hnone m hm hs] at hj
        cases hj
      | some s =>
        obtain ⟨u', hu', hw⟩ := h m.1 s hs
        cases hu.symm.trans hu'
        exact hw j (hsome m hm s hs j hj)

/-- Two shapes merge to one that has room for whatever either has room for. -/
theorem Distinct.merge (hs : s.Distinct) (ht : t.Distinct) (h : merge path s t = .ok u) :
    u.Distinct ∧ s.Within u ∧ t.Within u := by
  induction hs generalizing path t u with
  | plain p =>
    obtain ⟨q, r, rfl, rfl, hr⟩ := of_merge_plain h
    refine ⟨.plain r, fun j hj => ?_, fun j hj => ?_⟩ <;> cases hj with
    | plain hv =>
      obtain ⟨w, hw⟩ := PlainShape.exists_plainValue? hr (by simp) hv
      exact .plain hw
  | @object as hnodup has ih =>
    obtain ⟨bs, cs, rfl, rfl, hm⟩ := of_merge_object h
    cases ht with
    | object hnodup' hbs =>
      have hnames : (cs.map (·.1)).Nodup := nodup_mergeMembers hm hnodup hnodup'
      have helements (name : String) :
          (∀ u, elementOf cs name = some u → u.Distinct) ∧
            (∀ s, elementOf as name = some s → ∃ u, elementOf cs name = some u ∧ s.Within u) ∧
            ∀ t, elementOf bs name = some t → ∃ u, elementOf cs name = some u ∧ t.Within u := by
        obtain ⟨ha, hc⟩ | ⟨hb, hc⟩ | ⟨s, t, u, ha, hb, hc, hu⟩ :=
          of_mergeElement (elementOf_mergeMembers hm hnodup' name)
        · rw [ha, hc]
          exact ⟨hbs name, nofun, fun t ht => ⟨t, ht, fun _ => id⟩⟩
        · rw [hb, hc]
          exact ⟨has name, fun s hs => ⟨s, hs, fun _ => id⟩, nofun⟩
        · obtain ⟨hd, hsu, htu⟩ := ih name s ha (hbs name t hb) hu
          rw [ha, hb, hc]
          simp only [Option.some.injEq, forall_eq', exists_eq_left']
          exact ⟨hd, hsu, htu⟩
      exact ⟨.object hnames fun name => (helements name).1,
        within_object (fun _ _ => lookup_mergeMembers_left hm hnodup') fun name =>
          (helements name).2.1,
        within_object (fun _ _ => lookup_mergeMembers_right hm hnodup') fun name =>
          (helements name).2.2⟩

structure HasRoom (known : Option Shape) (js : List Json) : Prop where
  distinct : ∀ s, known = some s → s.Distinct
  covers : ∀ j ∈ js, ∃ s, known = some s ∧ s.Covers j

theorem hasRoom_nil : HasRoom none [] where
  distinct _ hs := by cases hs
  covers _ hj := by cases hj

theorem hasRoom_singleton (hs : s.Distinct) (h : s.Covers j) : HasRoom (some s) [j] where
  distinct _ hs' := Option.some.inj hs' ▸ hs
  covers _ hj := ⟨s, rfl, List.mem_singleton.1 hj ▸ h⟩

theorem HasRoom.append {a b c : Option Shape} {as bs : List Json} (ha : HasRoom a as)
    (hb : HasRoom b bs) (h : mergeElement path a b = .ok c) : HasRoom c (as ++ bs) := by
  obtain ⟨rfl, rfl⟩ | ⟨rfl, rfl⟩ | ⟨s, t, u, rfl, rfl, rfl, hu⟩ := of_mergeElement h
  · exact ⟨hb.distinct, fun j hj => (List.mem_append.1 hj).elim
      (fun hj => nomatch ha.covers j hj) (hb.covers j)⟩
  · exact ⟨ha.distinct, fun j hj => (List.mem_append.1 hj).elim
      (ha.covers j) fun hj => nomatch hb.covers j hj⟩
  · obtain ⟨hd, hsu, htu⟩ := (ha.distinct s rfl).merge (hb.distinct t rfl) hu
    refine ⟨fun _ he => Option.some.inj he ▸ hd, fun j hj => ⟨u, rfl, ?_⟩⟩
    rcases List.mem_append.1 hj with hj | hj
    · obtain ⟨_, hs, hc⟩ := ha.covers j hj
      cases hs
      exact hsu j hc
    · obtain ⟨_, ht, hc⟩ := hb.covers j hj
      cases ht
      exact htu j hc

end Merging

structure Fitting (m : Option MemberShape) (j : Json) : Prop where
  place : j.isNull = false → ∃ s, m = some s ∧ s.repeated = j.isArray
  room : HasRoom (m.bind (·.element)) j.items

theorem Covers.fitting {shapes : List (String × MemberShape)}
    {members : List (String × Json)} (hd : (Shape.object shapes).Distinct)
    (h : (Shape.object shapes).Covers (.object members)) :
    ∀ m ∈ members, Fitting (shapes.lookup m.1) m.2 := by
  intro m hm
  cases hd with
  | object _ hd =>
    cases h with
    | object hplaces hnone hsome =>
      refine ⟨hplaces m hm, hd m.1, fun j hj => ?_⟩
      cases hs : elementOf shapes m.1 with
      | none =>
        rw [hnone m hm hs] at hj
        cases hj
      | some s => exact ⟨s, hs, hsome m hm s hs j hj⟩

theorem exists_plainValue?_ofNumber (n : JsonNumber) :
    ∃ v, Json.plainValue? (PlainShape.ofNumber n).kind (.number n) = some v := by
  cases n with
  | float x => exact ⟨_, rfl⟩
  | integer n =>
    rw [PlainShape.ofNumber]
    split
    · rename_i h
      obtain ⟨w, hw⟩ := Option.isSome_iff_exists.1 h
      exact ⟨.int w, by rw [PlainShape.kind, Json.plainValue?, hw, Option.map_some]⟩
    · split
      · rename_i h
        obtain ⟨w, hw⟩ := Option.isSome_iff_exists.1 h
        exact ⟨.uint w, by rw [PlainShape.kind, Json.plainValue?, hw, Option.map_some]⟩
      · exact ⟨_, rfl⟩

theorem hasRoom_object {shapes : List (String × MemberShape)} {members : List (String × Json)}
    (hnodup : (members.map (·.1)).Nodup)
    (hsub : (shapes.map (·.1)).Sublist (members.map (·.1)))
    (h : ∀ m ∈ members, Fitting (shapes.lookup m.1) m.2) :
    HasRoom (some (object shapes)) [.object members] := by
  refine hasRoom_singleton (.object (hsub.nodup hnodup) fun name s hs => ?_)
    (.object (fun m hm => (h m hm).place) (fun m hm hno => ?_) fun m hm s hs j hj => ?_)
  · obtain ⟨a, ha, -⟩ := Option.bind_eq_some_iff.1 hs
    have hname : name ∈ shapes.map (·.1) := List.mem_map.2 ⟨_, mem_of_lookup ha, rfl⟩
    obtain ⟨m, hm, rfl⟩ := List.mem_map.1 (hsub.subset hname)
    exact (h m hm).room.distinct s hs
  · refine List.eq_nil_iff_forall_not_mem.2 fun j hj => ?_
    obtain ⟨s, hs, -⟩ := (h m hm).room.covers j hj
    cases hno.symm.trans hs
  · obtain ⟨s', hs', hc⟩ := (h m hm).room.covers j hj
    cases hs.symm.trans hs'
    exact hc

mutual

theorem fitting_ofMember {path : String} {j : Json} {m : Option MemberShape} (hj : j.DistinctNames)
    (h : ofMember path j = .ok m) : Fitting m j := by
  match j with
  | .null =>
    cases h
    exact ⟨nofun, hasRoom_nil⟩
  | .bool b =>
    cases h
    exact ⟨fun _ => ⟨_, rfl, rfl⟩, hasRoom_singleton (.plain _) (.plain rfl)⟩
  | .string s =>
    cases h
    exact ⟨fun _ => ⟨_, rfl, rfl⟩, hasRoom_singleton (.plain _) (.plain rfl)⟩
  | .number n =>
    cases h
    obtain ⟨v, hv⟩ := exists_plainValue?_ofNumber n
    exact ⟨fun _ => ⟨_, rfl, rfl⟩, hasRoom_singleton (.plain _) (.plain hv)⟩
  | .object members =>
    rw [ofMember] at h
    obtain ⟨shapes, hs, h⟩ := of_bind_eq_ok h
    cases h
    obtain ⟨hsub, hfit⟩ := fitting_ofMembers hj.member hj.nodup hs
    exact ⟨fun _ => ⟨_, rfl, rfl⟩, hasRoom_object hj.nodup hsub hfit⟩
  | .array js =>
    rw [ofMember] at h
    obtain ⟨e, hs, h⟩ := of_bind_eq_ok h
    cases h
    exact ⟨fun _ => ⟨_, rfl, rfl⟩, hasRoom_ofItems hj.item hasRoom_nil hs⟩
termination_by structural j

theorem hasRoom_ofItems {path : String} {known e : Option Shape} {seen js : List Json}
    (hjs : ∀ j ∈ js, j.DistinctNames) (hk : HasRoom known seen)
    (h : ofItems path known js = .ok e) : HasRoom e (seen ++ js.filter fun j => !j.isNull) := by
  match js with
  | [] =>
    cases h
    rwa [List.filter_nil, List.append_nil]
  | j :: rest =>
    obtain ⟨hj, hrest⟩ := List.forall_mem_cons.1 hjs
    by_cases ha : ∃ items, j = .array items
    · obtain ⟨items, rfl⟩ := ha
      cases h
    · have ha : ∀ items, j = .array items → False := fun items he => ha ⟨items, he⟩
      rw [ofItems_cons ha] at h
      obtain ⟨m, hm, h⟩ := of_bind_eq_ok h
      obtain ⟨merged, hmerge, h⟩ := of_bind_eq_ok h
      have hroom := hasRoom_ofItems hrest (hk.append (fitting_ofMember hj hm).room hmerge) h
      rwa [Json.items_of_ne_array ha, List.append_assoc, ← List.filter_append] at hroom
termination_by structural js

theorem fitting_ofMembers {path : String} {members : List (String × Json)}
    {shapes : List (String × MemberShape)}
    (hms : ∀ m ∈ members, m.2.DistinctNames) (hn : (members.map (·.1)).Nodup)
    (h : ofMembers path members = .ok shapes) :
    (shapes.map (·.1)).Sublist (members.map (·.1)) ∧
      ∀ m ∈ members, Fitting (shapes.lookup m.1) m.2 := by
  match members with
  | [] =>
    cases h
    exact ⟨List.Sublist.refl _, nofun⟩
  | (name, j) :: rest =>
    obtain ⟨hj, hrest⟩ := List.forall_mem_cons.1 hms
    obtain ⟨hname, hnodup⟩ := List.nodup_cons.1 hn
    have hne (m : String × Json) (hm : m ∈ rest) : m.1 ≠ name :=
      fun he => hname (List.mem_map.2 ⟨m, hm, he⟩)
    rw [ofMembers] at h
    obtain ⟨m, hm, h⟩ := of_bind_eq_ok h
    have hfirst := fitting_ofMember hj hm
    cases m with
    | none =>
      obtain ⟨hsub, hfit⟩ := fitting_ofMembers hrest hnodup h
      refine ⟨hsub.cons _, List.forall_mem_cons.2 ⟨?_, hfit⟩⟩
      rwa [lookup_eq_none_iff_not_mem.2 fun h => hname (hsub.subset h)]
    | some m =>
      obtain ⟨shapes, hs, h⟩ := of_bind_eq_ok h
      cases h
      obtain ⟨hsub, hfit⟩ := fitting_ofMembers hrest hnodup hs
      refine ⟨hsub.cons_cons _, List.forall_mem_cons.2 ⟨?_, fun m hm => ?_⟩⟩
      · rwa [List.lookup_cons_self]
      · rw [lookup_cons_of_ne (hne m hm)]
        exact hfit m hm
termination_by structural members

end

end Shape

end RecordPath
