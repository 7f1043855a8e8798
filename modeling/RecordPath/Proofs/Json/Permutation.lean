import RecordPath.Proofs.Json.Acceptance

namespace RecordPath

open Json (Alike childrenNamed items membersNamed numbers standing)

namespace Json

/-- The items of some arrays in a document are put in another order. -/
inductive Permuted : Json → Json → Prop
  | refl (j : Json) : Permuted j j
  | trans {i j k : Json} (h : Permuted i j) (h' : Permuted j k) : Permuted i k
  | items {js ks : List Json} (h : js.Perm ks) : Permuted (array js) (array ks)
  | inItem {i j : Json} (front back : List Json) (h : Permuted i j) :
      Permuted (array (front ++ i :: back)) (array (front ++ j :: back))
  | inMember {i j : Json} (front back : List (String × Json)) (name : String)
      (h : Permuted i j) :
      Permuted (object (front ++ (name, i) :: back)) (object (front ++ (name, j) :: back))

namespace Permuted

variable {i j : Json}

theorem symm (h : Permuted i j) : Permuted j i := by
  induction h with
  | refl j => exact .refl j
  | trans _ _ ih ih' => exact ih'.trans ih
  | items h => exact .items h.symm
  | inItem front back _ ih => exact .inItem front back ih
  | inMember front back name _ ih => exact .inMember front back name ih

theorem isNull_eq (h : Permuted i j) : i.isNull = j.isNull := by
  induction h with
  | trans _ _ ih ih' => exact ih.trans ih'
  | _ => rfl

theorem isArray_eq (h : Permuted i j) : i.isArray = j.isArray := by
  induction h with
  | trans _ _ ih ih' => exact ih.trans ih'
  | _ => rfl

theorem kind?_eq (h : Permuted i j) : i.kind? = j.kind? := by
  induction h with
  | trans _ _ ih ih' => exact ih.trans ih'
  | _ => rfl

/-- Only arrays have an order that can change, and numbers hold none. -/
theorem eq_number {n : JsonNumber} (h : Permuted i j) (hi : i = number n) : j = number n := by
  induction h with
  | refl => exact hi
  | trans _ _ ih ih' => exact ih' (ih hi)
  | _ => cases hi

theorem names_eq (h : Permuted i j) : i.names = j.names := by
  induction h with
  | trans _ _ ih ih' => exact ih.trans ih'
  | inMember => simp [names]
  | _ => rfl

end Permuted

def PermutedIn (kin kin' : List Json) : Prop := ∀ i ∈ kin, ∃ j ∈ kin', Permuted i j

theorem PermutedIn.refl (kin : List Json) : PermutedIn kin kin := fun i hi => ⟨i, hi, .refl i⟩

theorem PermutedIn.trans {kin kin' kin'' : List Json} (h : PermutedIn kin kin')
    (h' : PermutedIn kin' kin'') : PermutedIn kin kin'' := by
  intro i hi
  obtain ⟨j, hj, hij⟩ := h i hi
  obtain ⟨k, hk, hjk⟩ := h' j hj
  exact ⟨k, hk, hij.trans hjk⟩

/-- One for each of the same things, save that one of them is replaced. -/
theorem exists_of_mem_replace {α : Type} {R : α → α → Prop} {a b : α} (hrefl : ∀ x, R x x)
    (h : R a b) (front back : List α) :
    ∀ x ∈ front ++ a :: back, ∃ y ∈ front ++ b :: back, R x y := by
  intro x hx
  rw [List.mem_append, List.mem_cons] at hx
  obtain hx | rfl | hx := hx
  · exact ⟨x, by simp [hx], hrefl x⟩
  · exact ⟨b, by simp, h⟩
  · exact ⟨x, by simp [hx], hrefl x⟩

namespace Permuted

variable {i j : Json}

theorem exists_array {js : List Json} (h : Permuted i j) (hi : i = array js) :
    ∃ ks, j = array ks ∧ PermutedIn js ks := by
  induction h generalizing js with
  | refl => exact ⟨js, hi, .refl js⟩
  | trans _ _ ih ih' =>
    obtain ⟨ks, hks, hjs⟩ := ih hi
    obtain ⟨ls, hls, hks⟩ := ih' hks
    exact ⟨ls, hls, hjs.trans hks⟩
  | items h =>
    cases hi
    exact ⟨_, rfl, fun i hi => ⟨i, h.subset hi, .refl i⟩⟩
  | inItem front back h =>
    cases hi
    exact ⟨_, rfl, exists_of_mem_replace .refl h front back⟩
  | inMember => cases hi

theorem exists_object {members : List (String × Json)} (h : Permuted i j)
    (hi : i = object members) :
    ∃ members', j = object members' ∧ ∀ name v, members.lookup name = some v →
      ∃ v', members'.lookup name = some v' ∧ Permuted v v' := by
  induction h generalizing members with
  | refl => exact ⟨members, hi, fun name v hv => ⟨v, hv, .refl v⟩⟩
  | trans _ _ ih ih' =>
    obtain ⟨ms, hms, h⟩ := ih hi
    obtain ⟨ns, hns, h'⟩ := ih' hms
    refine ⟨ns, hns, fun name v hv => ?_⟩
    obtain ⟨v', hv', hvv'⟩ := h name v hv
    obtain ⟨v'', hv'', hvv''⟩ := h' name v' hv'
    exact ⟨v'', hv'', hvv'.trans hvv''⟩
  | inMember front back other h =>
    cases hi
    refine ⟨_, rfl, fun name v hv => ?_⟩
    rw [List.lookup_append] at hv ⊢
    cases hfront : front.lookup name with
    | some w =>
      rw [hfront] at hv
      cases hv
      exact ⟨v, rfl, .refl v⟩
    | none =>
      rw [hfront, Option.none_or] at hv
      rw [Option.none_or]
      by_cases hn : name = other
      · subst hn
        rw [List.lookup_cons_self] at hv ⊢
        cases hv
        exact ⟨_, rfl, h⟩
      · rw [lookup_cons_of_ne hn] at hv ⊢
        exact ⟨v, hv, .refl v⟩
  | items => cases hi
  | inItem => cases hi

theorem permutedIn_within_array {js ks : List Json} (h : Permuted (array js) (array ks))
    (hjs : ∀ j ∈ js, ∃ k ∈ ks, PermutedIn j.within k.within) :
    PermutedIn (array js).within (array ks).within := by
  intro l hl
  obtain rfl | ⟨j, hj, hl⟩ := mem_within_array.1 hl
  · exact ⟨_, self_mem_within _, h⟩
  · obtain ⟨k, hk, hjk⟩ := hjs j hj
    obtain ⟨l', hl', hll'⟩ := hjk l hl
    exact ⟨l', mem_within_array.2 (.inr ⟨k, hk, hl'⟩), hll'⟩

theorem permutedIn_within_object {ms ns : List (String × Json)}
    (h : Permuted (object ms) (object ns))
    (hms : ∀ m ∈ ms, ∃ n ∈ ns, PermutedIn m.2.within n.2.within) :
    PermutedIn (object ms).within (object ns).within := by
  intro l hl
  obtain rfl | ⟨m, hm, hl⟩ := mem_within_object.1 hl
  · exact ⟨_, self_mem_within _, h⟩
  · obtain ⟨n, hn, hmn⟩ := hms m hm
    obtain ⟨l', hl', hll'⟩ := hmn l hl
    exact ⟨l', mem_within_object.2 (.inr ⟨n, hn, hl'⟩), hll'⟩

theorem within (h : Permuted i j) : PermutedIn i.within j.within := by
  induction h with
  | refl j => exact .refl _
  | trans _ _ ih ih' => exact ih.trans ih'
  | items h =>
    exact permutedIn_within_array (.items h) fun j hj => ⟨j, h.subset hj, .refl _⟩
  | @inItem i j front back h ih =>
    exact permutedIn_within_array (.inItem front back h) (exists_of_mem_replace
      (R := fun k l => PermutedIn k.within l.within) (fun _ => .refl _) ih front back)
  | @inMember i j front back name h ih =>
    exact permutedIn_within_object (.inMember front back name h) (exists_of_mem_replace
      (R := fun m n => PermutedIn m.2.within n.2.within) (fun _ => .refl _) ih front back)

theorem distinctNames (h : Permuted i j) (hi : i.DistinctNames) : j.DistinctNames := by
  intro k hk
  obtain ⟨l, hl, hkl⟩ := h.symm.within k hk
  rw [hkl.names_eq]
  exact hi l hl

theorem flat (h : Permuted i j) (hi : i.Flat) : j.Flat := by
  intro js hjs is his
  obtain ⟨l, hl, hjl⟩ := h.symm.within _ hjs
  obtain ⟨ls, rfl, hls⟩ := hjl.exists_array rfl
  obtain ⟨k, hk, hik⟩ := hls _ his
  obtain ⟨ks, rfl, -⟩ := hik.exists_array rfl
  exact hi ls hl ks hk

theorem permutedIn_items (h : Permuted i j) : PermutedIn i.items j.items := by
  cases ha : i.isArray with
  | true =>
    obtain ⟨js, rfl⟩ := exists_of_isArray ha
    obtain ⟨ks, rfl, hks⟩ := h.exists_array rfl
    intro k hk
    obtain ⟨hk, hnull⟩ := List.mem_filter.1 hk
    obtain ⟨l, hl, hkl⟩ := hks k hk
    rw [hkl.isNull_eq] at hnull
    exact ⟨l, List.mem_filter.2 ⟨hl, hnull⟩, hkl⟩
  | false =>
    cases hnull : i.isNull with
    | true =>
      cases i with
      | null =>
        intro k hk
        cases hk
      | _ => cases hnull
    | false =>
      rw [items_eq_singleton hnull ha,
        items_eq_singleton (h.isNull_eq.symm.trans hnull) (h.isArray_eq.symm.trans ha)]
      exact List.forall_mem_singleton.2 ⟨j, List.mem_singleton_self j, h⟩

end Permuted

namespace PermutedIn

variable {kin kin' : List Json}

theorem membersNamed (h : PermutedIn kin kin') (name : String) :
    PermutedIn (membersNamed name kin) (membersNamed name kin') := by
  intro v hv
  obtain ⟨members, hmem, hl⟩ := mem_membersNamed.1 hv
  obtain ⟨j, hj, hij⟩ := h _ hmem
  obtain ⟨members', rfl, hlookup⟩ := hij.exists_object rfl
  obtain ⟨v', hv', hvv'⟩ := hlookup name v hl
  exact ⟨v', mem_membersNamed.2 ⟨members', hj, hv'⟩, hvv'⟩

theorem items (h : PermutedIn kin kin') : PermutedIn (kin.flatMap items) (kin'.flatMap items) := by
  intro v hv
  obtain ⟨i, hi, hv⟩ := List.mem_flatMap.1 hv
  obtain ⟨j, hj, hij⟩ := h i hi
  obtain ⟨v', hv', hvv'⟩ := hij.permutedIn_items v hv
  exact ⟨v', List.mem_flatMap.2 ⟨j, hj, hv'⟩, hvv'⟩

theorem childrenNamed (h : PermutedIn kin kin') (name : String) :
    PermutedIn (childrenNamed name kin) (childrenNamed name kin') := by
  rw [childrenNamed_eq_flatMap, childrenNamed_eq_flatMap]
  exact (h.membersNamed name).items

theorem standing (h : PermutedIn kin kin') (path : List String) :
    PermutedIn (standing kin path) (standing kin' path) := by
  induction path generalizing kin kin' with
  | nil => exact h
  | cons name path ih => exact ih (h.childrenNamed name)

theorem alike (h : PermutedIn kin kin') (ha : Alike kin') : Alike kin where
  lists path name i hi j hj hin hjn := by
    obtain ⟨i', hi', hii'⟩ := (h.standing path).membersNamed name i hi
    obtain ⟨j', hj', hjj'⟩ := (h.standing path).membersNamed name j hj
    rw [hii'.isNull_eq] at hin
    rw [hjj'.isNull_eq] at hjn
    rw [hii'.isArray_eq, hjj'.isArray_eq]
    exact ha.lists path name i' hi' j' hj' hin hjn
  kinds path i hi j hj k l hk hl := by
    obtain ⟨i', hi', hii'⟩ := h.standing path i hi
    obtain ⟨j', hj', hjj'⟩ := h.standing path j hj
    rw [hii'.kind?_eq] at hk
    rw [hjj'.kind?_eq] at hl
    exact ha.kinds path i' hi' j' hj' k l hk hl

theorem numbers_subset (h : PermutedIn kin kin') : numbers kin ⊆ numbers kin' := by
  intro n hn
  obtain ⟨i, hi, hin⟩ := List.mem_filterMap.1 hn
  obtain ⟨j, hj, hij⟩ := h i hi
  have hi' : i = number n := by
    cases i <;> cases hin
    rfl
  exact List.mem_filterMap.2 ⟨j, hj, by rw [hij.eq_number hi']⟩

theorem exists_isNull_eq_false (h : PermutedIn kin kin') (hkin : ∃ j ∈ kin, j.isNull = false) :
    ∃ j ∈ kin', j.isNull = false := by
  obtain ⟨i, hi, hin⟩ := hkin
  obtain ⟨j, hj, hij⟩ := h i hi
  exact ⟨j, hj, hij.isNull_eq ▸ hin⟩

theorem eq_nil (h : PermutedIn kin kin') (hnil : kin' = []) : kin = [] := by
  subst hnil
  rw [List.eq_nil_iff_forall_not_mem]
  intro i hi
  obtain ⟨j, hj, -⟩ := h i hi
  cases hj

end PermutedIn

theorem Permuted.homogeneous {i j : Json} (h : Permuted i j) (hi : i.Homogeneous) :
    j.Homogeneous where
  flat := h.flat hi.flat
  alike := by
    have hji : PermutedIn [j] [i] :=
      List.forall_mem_singleton.2 ⟨i, List.mem_singleton_self i, h.symm⟩
    exact hji.alike hi.alike

end Json

namespace PlainShape

theorem ofNumbers_congr {as bs : List JsonNumber} (h : as ⊆ bs) (h' : bs ⊆ as) :
    ofNumbers as = ofNumbers bs := by
  have hall (p : JsonNumber → Bool) : as.all p = bs.all p := by
    rw [Bool.eq_iff_iff, List.all_eq_true, List.all_eq_true]
    exact ⟨fun hp n hn => hp n (h' hn), fun hp n hn => hp n (h hn)⟩
  rw [ofNumbers, hall, hall, ofNumbers]

theorem ofKind?_congr {as bs : List JsonNumber} (h : as ⊆ bs) (h' : bs ⊆ as) (k : Json.Kind) :
    ofKind? as k = ofKind? bs k := by
  cases k with
  | number => exact congrArg some (ofNumbers_congr h h')
  | _ => rfl

end PlainShape

namespace Shape

open Json (PermutedIn)

def plain? : Shape → Option PlainShape
  | plain p => some p
  | object _ => none

def outline (m : MemberShape) : Bool × Option (Option PlainShape) :=
  (m.repeated, m.element.map plain?)

section Outline

variable {s s' : Shape} {kin kin' : List Json}

theorem plain?_congr (h : s.Describes kin) (h' : s'.Describes kin') (hk : PermutedIn kin kin')
    (hk' : PermutedIn kin' kin) : s.plain? = s'.plain? := by
  obtain ⟨i, hi⟩ := List.exists_mem_of_ne_nil kin h.ne_nil
  obtain ⟨j, hj, hij⟩ := hk i hi
  have hkinds := hij.kind?_eq
  cases h with
  | plain hne hkind hp =>
    rw [hkind i hi] at hkinds
    cases h' with
    | plain hne' hkind' hq =>
      rw [hkind' j hj] at hkinds
      cases hkinds
      exact hp.symm.trans
        ((PlainShape.ofKind?_congr hk.numbers_subset hk'.numbers_subset _).trans hq)
    | object hne' hkind' =>
      rw [hkind' j hj] at hkinds
      cases hkinds
      cases hp
  | object hne hkind =>
    rw [hkind i hi] at hkinds
    cases h' with
    | plain hne' hkind' hq =>
      rw [hkind' j hj] at hkinds
      cases hkinds
      cases hq
    | object => rfl

theorem element_congr {e e' : Option Shape} (he : ElementDescribes e kin)
    (he' : ElementDescribes e' kin') (hk : PermutedIn kin kin') (hk' : PermutedIn kin' kin) :
    e.map plain? = e'.map plain? := by
  cases e with
  | none =>
    cases e' with
    | none => rfl
    | some s' => exact absurd (hk'.eq_nil (he.none rfl)) (he'.some s' rfl).ne_nil
  | some s =>
    cases e' with
    | none => exact absurd (hk.eq_nil (he'.none rfl)) (he.some s rfl).ne_nil
    | some s' => exact congrArg some (plain?_congr (he.some s rfl) (he'.some s' rfl) hk hk')

theorem outline_congr {m m' : Option MemberShape} {js js' : List Json} (h : MemberDescribes m js)
    (h' : MemberDescribes m' js')
    (he : ElementDescribes (m.bind (·.element)) (js.flatMap items))
    (he' : ElementDescribes (m'.bind (·.element)) (js'.flatMap items))
    (hk : PermutedIn js js') (hk' : PermutedIn js' js) : m.map outline = m'.map outline := by
  cases m with
  | none =>
    cases m' with
    | none => rfl
    | some m' =>
      obtain ⟨j, hj, hjn⟩ := hk'.exists_isNull_eq_false (h'.present m' rfl)
      rw [h.missing rfl j hj] at hjn
      cases hjn
  | some m =>
    obtain ⟨i, hi, hin⟩ := h.present m rfl
    obtain ⟨j, hj, hij⟩ := hk i hi
    have hjn : j.isNull = false := hij.isNull_eq ▸ hin
    cases m' with
    | none =>
      rw [h'.missing rfl j hj] at hjn
      cases hjn
    | some m' =>
      have hrepeated : m.repeated = m'.repeated := by
        rw [← h.repeated m rfl i hi hin, ← h'.repeated m' rfl j hj hjn, hij.isArray_eq]
      have helement := element_congr he he' hk.items hk'.items
      exact congrArg some (Prod.ext hrepeated helement)

/-- The members at a path have one outline, whatever the order of items. -/
theorem memberAt_congr (h : s.Describes kin) (h' : s'.Describes kin') (hk : PermutedIn kin kin')
    (hk' : PermutedIn kin' kin) (path : List String) :
    (s.memberAt path).map outline = (s'.memberAt path).map outline := by
  induction path generalizing s s' kin kin' with
  | nil => rw [memberAt_nil, memberAt_nil]
  | cons name path ih =>
    have hplain := plain?_congr h h' hk hk'
    cases s with
    | plain p =>
      cases s' with
      | plain q => rw [memberAt_plain, memberAt_plain]
      | object => cases hplain
    | object members =>
      cases s' with
      | plain q => cases hplain
      | object members' =>
        have helement := h.element name
        have helement' := h'.element name
        by_cases hpath : path = []
        · subst hpath
          rw [Json.childrenNamed_eq_flatMap] at helement helement'
          cases h with
          | object _ _ _ hmember _ =>
            cases h' with
            | object _ _ _ hmember' _ =>
              exact outline_congr (hmember name) (hmember' name) helement helement'
                (hk.membersNamed name) (hk'.membersNamed name)
        · rw [memberAt_object hpath, memberAt_object hpath]
          have hsame := element_congr helement helement' (hk.childrenNamed name)
            (hk'.childrenNamed name)
          cases he : elementOf members name with
          | none =>
            cases he' : elementOf members' name with
            | none => rfl
            | some t' =>
              rw [he, he'] at hsame
              cases hsame
          | some t =>
            cases he' : elementOf members' name with
            | none =>
              rw [he, he'] at hsame
              cases hsame
            | some t' =>
              exact ih (helement.some t he) (helement'.some t' he') (hk.childrenNamed name)
                (hk'.childrenNamed name)

end Outline

/-- A document has a shape just if it is homogeneous. The shape tells of the numbers at a path
whether they all are signed integers, or all integers beyond those. The order of the items of
arrays makes no difference to either, nor to the cardinality and the kind of a member. -/
theorem exists_ofMembers_iff_homogeneous (path : String) (members : List (String × Json))
    (hdoc : (Json.object members).DistinctNames) :
    ((∃ shapes, ofMembers path members = .ok shapes) ↔ (Json.object members).Homogeneous) ∧
    (∀ shapes, ofMembers path members = .ok shapes →
      ∀ names, numbers (standing [.object members] names) ≠ [] →
        ((object shapes).memberAt names).bind (·.element) =
          some (plain (.ofNumbers (numbers (standing [.object members] names))))) ∧
    ∀ members', Json.Permuted (.object members) (.object members') →
      ((∃ shapes, ofMembers path members' = .ok shapes) ↔
        ∃ shapes, ofMembers path members = .ok shapes) ∧
      ∀ shapes shapes', ofMembers path members = .ok shapes →
        ofMembers path members' = .ok shapes' → ∀ names,
          ((object shapes).memberAt names).map outline =
            ((object shapes').memberAt names).map outline := by
  refine ⟨exists_ofMembers_iff hdoc, fun shapes h names hne => ?_, fun members' hp => ⟨?_, ?_⟩⟩
  · have hnames : names ≠ [] := by
      rintro rfl
      exact hne rfl
    have helement := (describes_object hdoc h).memberAt hnames
    cases he : ((object shapes).memberAt names).bind (·.element) with
    | none =>
      rw [helement.none he] at hne
      exact absurd rfl hne
    | some s => rw [eq_ofNumbers_of_describes (helement.some s he) hne]
  · rw [exists_ofMembers_iff hdoc, exists_ofMembers_iff (hp.distinctNames hdoc)]
    exact ⟨hp.symm.homogeneous, hp.homogeneous⟩
  · intro shapes shapes' h h' names
    have hk : PermutedIn [.object members] [.object members'] :=
      List.forall_mem_singleton.2 ⟨_, List.mem_singleton_self _, hp⟩
    have hk' : PermutedIn [.object members'] [.object members] :=
      List.forall_mem_singleton.2 ⟨_, List.mem_singleton_self _, hp.symm⟩
    exact memberAt_congr (describes_object hdoc h)
      (describes_object (hp.distinctNames hdoc) h') hk hk' names

/-- An integer and a float in one list, in either order. -/
theorem exists_ofMembers_iff_homogeneous_sizes :
    let members := [("sizes", Json.array [.number (.integer 1), .null, .number (.float 2.5)])]
    let members' := [("sizes", Json.array [.number (.float 2.5), .null, .number (.integer 1)])]
    (Json.object members).Homogeneous ∧ ∃ shapes, ofMembers "Root" members' = .ok shapes ∧
      ((object shapes).memberAt ["sizes"]).map outline = some (true, some (some .float)) := by
  intro members members'
  have hdoc : (Json.object members).DistinctNames := by
    simp [Json.DistinctNames, Json.within, Json.withinItems, Json.withinMembers, Json.names,
      members]
  obtain ⟨haccepts, hnumbers, horder⟩ := exists_ofMembers_iff_homogeneous "Root" members hdoc
  have hshapes : ofMembers "Root" members = .ok [("sizes", ⟨true, some (plain .float)⟩)] := rfl
  have hp : Json.Permuted (.object members) (.object members') :=
    .inMember [] [] "sizes" (.items (List.reverse_perm _).symm)
  obtain ⟨hsame, houtline⟩ := horder members' hp
  obtain ⟨shapes, hs⟩ := hsame.2 ⟨_, hshapes⟩
  exact ⟨haccepts.1 ⟨_, hshapes⟩, shapes, hs, (houtline _ _ hshapes hs ["sizes"]).symm⟩

end Shape

end RecordPath
