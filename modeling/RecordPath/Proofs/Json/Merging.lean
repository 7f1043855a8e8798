import RecordPath.Json.Shape
import RecordPath.Proofs.Json.Members
import RecordPath.Proofs.Record.Workshop

namespace RecordPath.Shape

open Json (lookup_cons_of_ne lookup_eq_none_iff_not_mem)

def elementOf (members : List (String × MemberShape)) (name : String) : Option Shape :=
  (members.lookup name).bind (·.element)

theorem map_fst_update (name : String) (m : MemberShape) (members : List (String × MemberShape)) :
    (update name m members).map (·.1) = members.map (·.1) := by
  rw [update, List.map_map]
  refine List.map_congr_left fun old _ => ?_
  rw [Function.comp_apply]
  split <;> simp_all

theorem lookup_update_of_ne {name other : String} (h : other ≠ name) (m : MemberShape)
    (members : List (String × MemberShape)) :
    (update name m members).lookup other = members.lookup other := by
  induction members with
  | nil => rfl
  | cons old rest ih =>
    obtain ⟨k, x⟩ := old
    rw [update, List.map_cons, ← update]
    split
    · rename_i hk
      rw [lookup_cons_of_ne h, ih, lookup_cons_of_ne (by rwa [← hk] at h)]
    · rw [List.lookup_cons, List.lookup_cons, ih]

theorem lookup_update_self {name : String} {old : MemberShape} (m : MemberShape)
    {members : List (String × MemberShape)} (h : members.lookup name = some old) :
    (update name m members).lookup name = some m := by
  induction members with
  | nil => cases h
  | cons first rest ih =>
    obtain ⟨k, x⟩ := first
    rw [update, List.map_cons, ← update]
    split
    · exact List.lookup_cons_self
    · rename_i hk
      rw [lookup_cons_of_ne (Ne.symm hk)] at h ⊢
      exact ih h

theorem elementOf_of_lookup {members : List (String × MemberShape)} {name : String}
    {m : MemberShape} (h : members.lookup name = some m) : elementOf members name = m.element := by
  rw [elementOf, h, Option.bind_some]

theorem elementOf_of_not_mem {members : List (String × MemberShape)} {name : String}
    (h : name ∉ members.map (·.1)) : elementOf members name = none := by
  rw [elementOf, lookup_eq_none_iff_not_mem.2 h, Option.bind_none]

theorem elementOf_cons_of_ne {members : List (String × MemberShape)} {name other : String}
    {m : MemberShape} (h : name ≠ other) :
    elementOf ((other, m) :: members) name = elementOf members name := by
  rw [elementOf, lookup_cons_of_ne h, elementOf]

theorem mergeElement_none (path : String) (a : Option Shape) :
    mergeElement path a none = .ok a := by
  cases a <;> rfl

theorem none_mergeElement (path : String) (b : Option Shape) :
    mergeElement path none b = .ok b := by
  cases b <;> rfl

/-- The shape that two members of one name have together, either of which may be missing. -/
def mergeMember (path : String) :
    Option MemberShape → Option MemberShape → Except Unsupported (Option MemberShape)
  | none, n => .ok n
  | m, none => .ok m
  | some m, some n =>
    if m.repeated ≠ n.repeated then .error (.listAndSingle path)
    else do return some ⟨n.repeated, ← mergeElement path m.element n.element⟩

theorem mergeMember_none (path : String) (m : Option MemberShape) :
    mergeMember path m none = .ok m := by
  cases m <;> rfl

theorem none_mergeMember (path : String) (n : Option MemberShape) :
    mergeMember path none n = .ok n := by
  cases n <;> rfl

theorem mergeMember_some {path : String} {m n : MemberShape} {e : Option Shape}
    (hr : m.repeated = n.repeated) (he : mergeElement path m.element n.element = .ok e) :
    mergeMember path (some m) (some n) = .ok (some ⟨n.repeated, e⟩) := by
  rw [mergeMember, if_neg (not_not_intro hr), he]
  rfl

theorem of_mergeMember {path : String} {m n c : Option MemberShape}
    (h : mergeMember path m n = .ok c) :
    (m = none ∧ c = n) ∨ (n = none ∧ c = m) ∨
      ∃ m' n' e, m = some m' ∧ n = some n' ∧ c = some ⟨n'.repeated, e⟩ ∧
        m'.repeated = n'.repeated ∧ mergeElement path m'.element n'.element = .ok e := by
  cases m with
  | none =>
    rw [none_mergeMember] at h
    cases h
    exact .inl ⟨rfl, rfl⟩
  | some m =>
    cases n with
    | none =>
      rw [mergeMember_none] at h
      cases h
      exact .inr (.inl ⟨rfl, rfl⟩)
    | some n =>
      rw [mergeMember] at h
      split at h
      · cases h
      · rename_i hr
        obtain ⟨e, he, h⟩ := of_bind_eq_ok h
        cases h
        exact .inr (.inr ⟨m, n, e, rfl, rfl, rfl, not_ne_iff.1 hr, he⟩)

/-- Members are merged name by name. -/
theorem lookup_mergeMembers {path : String} {as bs cs : List (String × MemberShape)}
    (h : mergeMembers path as bs = .ok cs) (hb : (bs.map (·.1)).Nodup) (name : String) :
    mergeMember (memberPath path name) (as.lookup name) (bs.lookup name) =
      .ok (cs.lookup name) := by
  induction bs generalizing as with
  | nil =>
    cases h
    exact mergeMember_none _ _
  | cons b rest ih =>
    obtain ⟨other, repeated, element⟩ := b
    obtain ⟨hother, hrest⟩ := List.nodup_cons.1 hb
    rw [mergeMembers] at h
    split at h
    · rename_i hnew
      have hrec := ih h hrest
      by_cases hn : name = other
      · subst hn
        rw [List.lookup_append, hnew, Option.none_or, List.lookup_cons_self,
          lookup_eq_none_iff_not_mem.2 hother, mergeMember_none] at hrec
        rw [hnew, List.lookup_cons_self, none_mergeMember, hrec]
      · rw [List.lookup_append, lookup_cons_of_ne hn, List.lookup_nil, Option.or_none] at hrec
        rw [lookup_cons_of_ne hn, hrec]
    · rename_i old hold
      split at h
      · cases h
      · rename_i hrepeated
        obtain ⟨merged, hm, h⟩ := of_bind_eq_ok h
        have hrec := ih h hrest
        by_cases hn : name = other
        · subst hn
          rw [lookup_update_self _ hold, lookup_eq_none_iff_not_mem.2 hother,
            mergeMember_none] at hrec
          rw [hold, List.lookup_cons_self, mergeMember_some (not_ne_iff.1 hrepeated) hm, hrec]
        · rw [lookup_update_of_ne hn] at hrec
          rw [lookup_cons_of_ne hn, hrec]

/-- Members are merged if those of each name are. -/
theorem exists_mergeMembers {path : String} {as bs : List (String × MemberShape)}
    (h : ∀ name, ∃ c,
      mergeMember (memberPath path name) (as.lookup name) (bs.lookup name) = .ok c)
    (hb : (bs.map (·.1)).Nodup) : ∃ cs, mergeMembers path as bs = .ok cs := by
  induction bs generalizing as with
  | nil => exact ⟨as, rfl⟩
  | cons b rest ih =>
    obtain ⟨other, repeated, element⟩ := b
    obtain ⟨hother, hrest⟩ := List.nodup_cons.1 hb
    -- the members behind the first have other names, so that the loop finds the old ones there
    have hrest_none : rest.lookup other = none := lookup_eq_none_iff_not_mem.2 hother
    have hnext {as' : List (String × MemberShape)}
        (has : ∀ name, name ≠ other → as'.lookup name = as.lookup name) :
        ∃ cs, mergeMembers path as' rest = .ok cs := by
      refine ih (fun name => ?_) hrest
      by_cases hn : name = other
      · rw [hn, hrest_none]
        exact ⟨_, mergeMember_none _ _⟩
      · have hname := h name
        rw [lookup_cons_of_ne hn] at hname
        rw [has name hn]
        exact hname
    rw [mergeMembers]
    cases hold : as.lookup other with
    | none =>
      refine hnext fun name hn => ?_
      rw [List.lookup_append, lookup_cons_of_ne hn, List.lookup_nil, Option.or_none]
    | some old =>
      obtain ⟨c, hc⟩ := h other
      rw [hold, List.lookup_cons_self] at hc
      obtain ⟨hno, -⟩ | ⟨hno, -⟩ | ⟨_, _, e, hm, hn, -, hr, he⟩ := of_mergeMember hc
      · cases hno
      · cases hno
      · cases hm
        cases hn
        dsimp only
        rw [if_neg (not_not_intro hr), he]
        exact hnext fun name hn => lookup_update_of_ne hn _ as

theorem elementOf_mergeMembers {path : String} {as bs cs : List (String × MemberShape)}
    (h : mergeMembers path as bs = .ok cs) (hb : (bs.map (·.1)).Nodup) (name : String) :
    mergeElement (memberPath path name) (elementOf as name) (elementOf bs name) =
      .ok (elementOf cs name) := by
  unfold elementOf
  obtain ⟨hm, hc⟩ | ⟨hn, hc⟩ | ⟨m, n, e, hm, hn, hc, -, he⟩ :=
    of_mergeMember (lookup_mergeMembers h hb name)
  · rw [hm, hc, Option.bind_none, none_mergeElement]
  · rw [hn, hc, Option.bind_none, mergeElement_none]
  · rw [hm, hn, hc, Option.bind_some, Option.bind_some, Option.bind_some, he]

theorem map_fst_mergeMembers {path : String} {as bs cs : List (String × MemberShape)}
    (h : mergeMembers path as bs = .ok cs) :
    ∃ added, cs.map (·.1) = as.map (·.1) ++ added ∧ added.Sublist (bs.map (·.1)) ∧
      ∀ name ∈ added, name ∉ as.map (·.1) := by
  induction bs generalizing as with
  | nil =>
    cases h
    exact ⟨[], by simp, List.Sublist.refl _, by simp⟩
  | cons b rest ih =>
    obtain ⟨other, repeated, element⟩ := b
    rw [mergeMembers] at h
    split at h
    · rename_i hnew
      obtain ⟨added, hcs, hsub, hfresh⟩ := ih h
      refine ⟨other :: added, by simp [hcs], hsub.cons_cons _, List.forall_mem_cons.2 ⟨?_, ?_⟩⟩
      · exact lookup_eq_none_iff_not_mem.1 hnew
      · exact fun name hname hmem => hfresh name hname (by simp [hmem])
    · split at h
      · cases h
      · obtain ⟨merged, -, h⟩ := of_bind_eq_ok h
        obtain ⟨added, hcs, hsub, hfresh⟩ := ih h
        rw [map_fst_update] at hcs hfresh
        exact ⟨added, hcs, hsub.cons _, hfresh⟩

theorem nodup_mergeMembers {path : String} {as bs cs : List (String × MemberShape)}
    (h : mergeMembers path as bs = .ok cs) (ha : (as.map (·.1)).Nodup)
    (hb : (bs.map (·.1)).Nodup) : (cs.map (·.1)).Nodup := by
  obtain ⟨added, hnames, hsub, hfresh⟩ := map_fst_mergeMembers h
  rw [hnames]
  exact List.nodup_append.2 ⟨ha, hsub.nodup hb, fun name hname other hother he =>
    hfresh other hother (he ▸ hname)⟩

theorem of_mergeElement {path : String} {a b c : Option Shape} (h : mergeElement path a b = .ok c) :
    (a = none ∧ c = b) ∨ (b = none ∧ c = a) ∨
      ∃ s t u, a = some s ∧ b = some t ∧ c = some u ∧ merge path s t = .ok u := by
  cases a with
  | none =>
    rw [none_mergeElement] at h
    cases h
    exact .inl ⟨rfl, rfl⟩
  | some s =>
    cases b with
    | none =>
      rw [mergeElement_none] at h
      cases h
      exact .inr (.inl ⟨rfl, rfl⟩)
    | some t =>
      rw [mergeElement] at h
      cases hm : merge path s t with
      | error e => rw [hm] at h; cases h
      | ok u =>
        rw [hm] at h
        cases h
        exact .inr (.inr ⟨s, t, u, rfl, rfl, rfl, hm⟩)

theorem of_merge_plain {path : String} {t u : Shape} {p : PlainShape}
    (h : merge path (plain p) t = .ok u) :
    ∃ q r, t = plain q ∧ u = plain r ∧ p.join? q = some r := by
  cases t with
  | object => cases h
  | plain q =>
    rw [merge] at h
    split at h
    · rename_i r hr
      cases h
      exact ⟨q, r, rfl, rfl, hr⟩
    · cases h

theorem of_merge_object {path : String} {t u : Shape} {as : List (String × MemberShape)}
    (h : merge path (object as) t = .ok u) :
    ∃ bs cs, t = object bs ∧ u = object cs ∧ mergeMembers path as bs = .ok cs := by
  cases t with
  | plain => cases h
  | object bs =>
    rw [merge] at h
    cases hm : mergeMembers path as bs with
    | error e => rw [hm] at h; cases h
    | ok cs =>
      rw [hm] at h
      cases h
      exact ⟨bs, cs, rfl, rfl, hm⟩

theorem lookup_mergeMembers_left {path name : String} {as bs cs : List (String × MemberShape)}
    {a : MemberShape} (h : mergeMembers path as bs = .ok cs) (hb : (bs.map (·.1)).Nodup)
    (ha : as.lookup name = some a) : ∃ c, cs.lookup name = some c ∧ c.repeated = a.repeated := by
  obtain ⟨hm, -⟩ | ⟨-, hc⟩ | ⟨m, n, e, hm, -, hc, hr, -⟩ :=
    of_mergeMember (lookup_mergeMembers h hb name)
  · cases ha.symm.trans hm
  · exact ⟨a, hc.trans ha, rfl⟩
  · cases ha.symm.trans hm
    exact ⟨_, hc, hr.symm⟩

theorem lookup_mergeMembers_right {path name : String} {as bs cs : List (String × MemberShape)}
    {b : MemberShape} (h : mergeMembers path as bs = .ok cs) (hb : (bs.map (·.1)).Nodup)
    (hb' : bs.lookup name = some b) : ∃ c, cs.lookup name = some c ∧ c.repeated = b.repeated := by
  obtain ⟨-, hc⟩ | ⟨hn, -⟩ | ⟨m, n, e, -, hn, hc, -, -⟩ :=
    of_mergeMember (lookup_mergeMembers h hb name)
  · exact ⟨b, hc.trans hb', rfl⟩
  · cases hb'.symm.trans hn
  · cases hb'.symm.trans hn
    exact ⟨_, hc, rfl⟩

theorem ofItems_cons {path : String} {known : Option Shape} {j : Json} {rest : List Json}
    (h : ∀ items, j = .array items → False) :
    ofItems path known (j :: rest) = (do
      let m ← ofMember path j
      ofItems path (← mergeElement path known (m.bind (·.element))) rest) := by
  rw [ofItems]
  exact h

end RecordPath.Shape
