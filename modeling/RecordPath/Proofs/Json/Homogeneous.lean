import RecordPath.Proofs.Json.Normal

namespace RecordPath.Json

inductive Kind where
  | bool
  | number
  | string
  | object
  deriving DecidableEq, Repr

def kind? : Json → Option Kind
  | null | array _ => none
  | bool _ => some .bool
  | number _ => some .number
  | string _ => some .string
  | object _ => some .object

def membersNamed (name : String) (kin : List Json) : List Json :=
  kin.flatMap fun
    | object members => (members.lookup name).toList
    | _ => []

/-- What stands at a path below some values. A path is made of names; arrays add nothing to it. -/
def standing (kin : List Json) : List String → List Json
  | [] => kin
  | name :: path => standing (childrenNamed name kin) path

/-- Values that are alike, and so is all that stands at one path below them: its members are all
arrays or all single values, nulls apart, and its values are of one kind. -/
structure Alike (kin : List Json) : Prop where
  lists : ∀ path name, ∀ i ∈ membersNamed name (standing kin path),
    ∀ j ∈ membersNamed name (standing kin path),
      i.isNull = false → j.isNull = false → i.isArray = j.isArray
  kinds : ∀ path, ∀ i ∈ standing kin path, ∀ j ∈ standing kin path,
    ∀ k l, i.kind? = some k → j.kind? = some l → k = l

def Flat (doc : Json) : Prop := ∀ js, array js ∈ doc.within → ∀ is, array is ∉ js

structure Homogeneous (doc : Json) : Prop where
  flat : doc.Flat
  alike : Alike [doc]

section Standing

variable {name : String} {j : Json} {kin kin' : List Json} {members : List (String × Json)}

theorem childrenNamed_eq_flatMap (name : String) (kin : List Json) :
    childrenNamed name kin = (membersNamed name kin).flatMap items := by
  rw [membersNamed, List.flatMap_assoc, childrenNamed]
  congr 1
  funext j
  cases j with
  | object members => cases h : members.lookup name <;> simp [h]
  | _ => rfl

theorem membersNamed_append (name : String) (as bs : List Json) :
    membersNamed name (as ++ bs) = membersNamed name as ++ membersNamed name bs :=
  List.flatMap_append

theorem membersNamed_object (name : String) (members : List (String × Json)) :
    membersNamed name [object members] = (members.lookup name).toList := by
  rw [membersNamed, List.flatMap_singleton]

theorem mem_membersNamed :
    j ∈ membersNamed name kin ↔ ∃ members, object members ∈ kin ∧ members.lookup name = some j := by
  rw [membersNamed, List.mem_flatMap]
  constructor
  · rintro ⟨i, hi, h⟩
    cases i with
    | object members => exact ⟨members, hi, Option.mem_toList.1 h⟩
    | _ => cases h
  · rintro ⟨members, hmem, h⟩
    exact ⟨object members, hmem, Option.mem_toList.2 h⟩

theorem mem_childrenNamed :
    j ∈ childrenNamed name kin ↔ ∃ i ∈ membersNamed name kin, j ∈ i.items := by
  rw [childrenNamed_eq_flatMap, List.mem_flatMap]

theorem membersNamed_subset (h : kin ⊆ kin') : membersNamed name kin ⊆ membersNamed name kin' := by
  intro j hj
  obtain ⟨members, hmem, hl⟩ := mem_membersNamed.1 hj
  exact mem_membersNamed.2 ⟨members, h hmem, hl⟩

theorem standing_subset (h : kin ⊆ kin') (path : List String) :
    standing kin path ⊆ standing kin' path := by
  induction path generalizing kin kin' with
  | nil => exact h
  | cons name path ih =>
    refine ih fun j hj => ?_
    obtain ⟨i, hi, hj⟩ := mem_childrenNamed.1 hj
    exact mem_childrenNamed.2 ⟨i, membersNamed_subset h hi, hj⟩

theorem standing_nil (path : List String) : standing [] path = [] := by
  induction path with
  | nil => rfl
  | cons name path ih => exact ih

end Standing

namespace Alike

variable {kin kin' : List Json}

theorem mono (h : Alike kin') (hs : kin ⊆ kin') : Alike kin where
  lists path name i hi j hj :=
    h.lists path name i (membersNamed_subset (standing_subset hs path) hi) j
      (membersNamed_subset (standing_subset hs path) hj)
  kinds path i hi j hj :=
    h.kinds path i (standing_subset hs path hi) j (standing_subset hs path hj)

/-- What stands at the members of one name is alike. -/
theorem child (h : Alike kin) (name : String) : Alike (childrenNamed name kin) where
  lists path := h.lists (name :: path)
  kinds path := h.kinds (name :: path)

end Alike

namespace Flat

variable {doc j : Json}

theorem mono (h : doc.Flat) (hj : j.within ⊆ doc.within) : j.Flat :=
  fun js hjs => h js (hj hjs)

end Flat

end RecordPath.Json
