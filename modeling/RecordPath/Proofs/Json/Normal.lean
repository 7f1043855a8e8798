import RecordPath.Decimal.Double
import RecordPath.Proofs.Json.Members

namespace RecordPath

namespace JsonNumber

def InRange : JsonNumber → Prop
  | integer n => -0x8000000000000000 ≤ n ∧ n < 0x10000000000000000
  | float x => Decimal.isFinite x = true

instance : DecidablePred InRange
  | integer n =>
    inferInstanceAs (Decidable (-0x8000000000000000 ≤ n ∧ n < 0x10000000000000000))
  | float x => inferInstanceAs (Decidable (Decimal.isFinite x = true))

def isSigned : JsonNumber → Bool
  | integer n => -0x8000000000000000 ≤ n && n < 0x8000000000000000
  | float _ => false

def isLarge : JsonNumber → Bool
  | integer n => 0x8000000000000000 ≤ n && n < 0x10000000000000000
  | float _ => false

def isZero : JsonNumber → Bool
  | integer n => n == 0
  | float x => (0 : Float) == x

def toDouble : JsonNumber → Float
  | integer n => Float.ofInt n
  | float x => x

/-- A number in the form that it shares with the numbers around it. -/
def among (ns : List JsonNumber) (n : JsonNumber) : JsonNumber :=
  if ns.all isSigned || ns.all isLarge then n else float n.toDouble

end JsonNumber

namespace Json

/-- What stands at a place: the items of an array, or a value alone. A null is nothing. -/
def items : Json → List Json
  | null => []
  | array js => js.filter fun j => !j.isNull
  | j => [j]

def childrenNamed (name : String) (kin : List Json) : List Json :=
  kin.flatMap fun
    | object members => ((members.lookup name).map items).getD []
    | _ => []

def numbers (kin : List Json) : List JsonNumber :=
  kin.filterMap fun
    | number n => some n
    | _ => none

def isArray (j : Json) : Bool := j matches array _

def isBlank : Json → Bool
  | null => true
  | bool b => !b
  | number n => n.isZero
  | string s => "" == s
  | array js => js.all isNull
  | object _ => false

mutual

/-- The normal form of a value; `kin` is all that stands at the path of the value. -/
def normal (kin : List Json) : Json → Json
  | number n => number (n.among (numbers kin))
  | array js => array (normalItems kin js)
  | object members => object (normalMembers kin members)
  | j => j
termination_by structural j => j

def normalItems (kin : List Json) : List Json → List Json
  | [] => []
  | null :: rest => normalItems kin rest
  | j :: rest => normal kin j :: normalItems kin rest
termination_by structural js => js

def normalMembers (kin : List Json) : List (String × Json) → List (String × Json)
  | [] => []
  | (name, j) :: rest =>
    if j.isBlank then normalMembers kin rest
    else (name, normal (childrenNamed name kin) j) :: normalMembers kin rest
termination_by structural ms => ms

end

def norm (doc : Json) : Json := normal [doc] doc

def kept (kin : List Json) (j : Json) : Option Json :=
  if j.isBlank then none else some (j.normal kin)

mutual

/-- All that a document is made of, itself included. -/
def within : Json → List Json
  | array js => array js :: withinItems js
  | object members => object members :: withinMembers members
  | j => [j]
termination_by structural j => j

def withinItems : List Json → List Json
  | [] => []
  | j :: rest => within j ++ withinItems rest
termination_by structural js => js

def withinMembers : List (String × Json) → List Json
  | [] => []
  | (_, j) :: rest => within j ++ withinMembers rest
termination_by structural ms => ms

end

def names : Json → List String
  | object members => members.map (·.1)
  | _ => []

/-- A document as it is read: members come in the order of their names, and numbers fit. -/
structure WellFormed (doc : Json) : Prop where
  sorted : ∀ j ∈ doc.within, j.names.Pairwise (· < ·)
  inRange : ∀ n ∈ numbers doc.within, n.InRange

def DistinctNames (doc : Json) : Prop := ∀ j ∈ doc.within, j.names.Nodup

def Undotted (doc : Json) : Prop := ∀ j ∈ doc.within, ∀ name ∈ j.names, '.' ∉ name.toList

section Kin

variable {name : String} {j : Json} {kin : List Json} {members : List (String × Json)}

theorem numbers_append (as bs : List Json) : numbers (as ++ bs) = numbers as ++ numbers bs :=
  List.filterMap_append

theorem childrenNamed_append (name : String) (as bs : List Json) :
    childrenNamed name (as ++ bs) = childrenNamed name as ++ childrenNamed name bs :=
  List.flatMap_append

theorem childrenNamed_object (name : String) (members : List (String × Json)) :
    childrenNamed name [object members] = ((members.lookup name).map items).getD [] := by
  rw [childrenNamed, List.flatMap_singleton]

/-- What stands at a member of an object stands at the members of that name. -/
theorem items_subset_childrenNamed (hobject : object members ∈ kin)
    (hn : (members.map (·.1)).Nodup) (hm : (name, j) ∈ members) :
    j.items ⊆ childrenNamed name kin := by
  intro i hi
  refine List.mem_flatMap.2 ⟨_, hobject, ?_⟩
  dsimp only
  rw [(lookup_eq_some_iff_mem hn).2 hm]
  exact hi

theorem items_of_ne_array (h : ∀ js, j = array js → False) :
    j.items = [j].filter fun j => !j.isNull := by
  cases j with
  | array js => exact (h js rfl).elim
  | _ => rfl

theorem exists_of_isArray (h : j.isArray = true) : ∃ items, j = array items := by
  cases j with
  | array items => exact ⟨items, rfl⟩
  | _ => cases h

theorem items_eq_singleton (hnull : j.isNull = false) (ha : j.isArray = false) : j.items = [j] := by
  cases j with
  | null => cases hnull
  | array => cases ha
  | _ => rfl

theorem isBlank_of_items (h : j.items = []) : j.isBlank = true := by
  cases j with
  | null => rfl
  | array js =>
    rw [items, List.filter_eq_nil_iff] at h
    rw [isBlank, List.all_eq_true]
    exact fun i hi => by simpa using h i hi
  | _ => cases h

theorem normalMembers_eq (kin : List Json) (members : List (String × Json)) :
    normalMembers kin members =
      members.filterMap fun m => (m.2.kept (childrenNamed m.1 kin)).map fun j => (m.1, j) := by
  induction members with
  | nil => rfl
  | cons m rest ih =>
    rw [normalMembers, List.filterMap_cons, kept, ih]
    cases m.2.isBlank <;> rfl

end Kin

theorem self_mem_within (j : Json) : j ∈ j.within := by cases j <;> simp [within]

theorem mem_within_array {js : List Json} {i : Json} :
    i ∈ (array js).within ↔ i = array js ∨ ∃ j ∈ js, i ∈ j.within := by
  rw [within, List.mem_cons]
  refine or_congr_right ?_
  induction js with
  | nil => simp [withinItems]
  | cons j rest ih => rw [withinItems, List.mem_append, ih, List.exists_mem_cons_iff]

theorem mem_within_object {members : List (String × Json)} {i : Json} :
    i ∈ (object members).within ↔ i = object members ∨ ∃ m ∈ members, i ∈ m.2.within := by
  rw [within, List.mem_cons]
  refine or_congr_right ?_
  induction members with
  | nil => simp [withinMembers]
  | cons m rest ih => rw [withinMembers, List.mem_append, ih, List.exists_mem_cons_iff]

theorem within_item {js : List Json} {j : Json} (h : j ∈ js) : j.within ⊆ (array js).within :=
  fun _ hi => mem_within_array.2 (.inr ⟨j, h, hi⟩)

theorem within_member {members : List (String × Json)} {m : String × Json} (h : m ∈ members) :
    m.2.within ⊆ (object members).within :=
  fun _ hi => mem_within_object.2 (.inr ⟨m, h, hi⟩)

theorem within_of_mem_items {i j : Json} (h : i ∈ j.items) : i.within ⊆ j.within := by
  cases j with
  | null => cases h
  | array js => exact within_item (List.mem_filter.1 h).1
  | _ =>
    obtain rfl := List.mem_singleton.1 h
    exact List.Subset.refl _

section DistinctNames

variable {members : List (String × Json)} {items : List Json}

theorem DistinctNames.nodup (h : (object members).DistinctNames) : (members.map (·.1)).Nodup :=
  h _ (self_mem_within _)

theorem DistinctNames.member (h : (object members).DistinctNames) :
    ∀ m ∈ members, m.2.DistinctNames :=
  fun _ hm i hi => h i (within_member hm hi)

theorem DistinctNames.item (h : (array items).DistinctNames) : ∀ j ∈ items, j.DistinctNames :=
  fun _ hj i hi => h i (within_item hj hi)

end DistinctNames

structure Regular (doc : Json) : Prop where
  wellFormed : doc.WellFormed
  undotted : doc.Undotted

namespace Regular

variable {doc j : Json}

theorem mono (h : doc.Regular) (hj : j.within ⊆ doc.within) : j.Regular where
  wellFormed :=
    ⟨fun i hi => h.wellFormed.sorted i (hj hi), fun n hn => by
      obtain ⟨i, hi, hn⟩ := List.mem_filterMap.1 hn
      exact h.wellFormed.inRange n (List.mem_filterMap.2 ⟨i, hj hi, hn⟩)⟩
  undotted i hi := h.undotted i (hj hi)

theorem distinctNames (h : doc.Regular) : doc.DistinctNames :=
  fun j hj => (h.wellFormed.sorted j hj).imp String.ne_of_lt

theorem sorted {members : List (String × Json)} (h : (object members).Regular) :
    (members.map (·.1)).Pairwise (· < ·) :=
  h.wellFormed.sorted _ (self_mem_within _)

theorem nodup {members : List (String × Json)} (h : (object members).Regular) :
    (members.map (·.1)).Nodup :=
  h.distinctNames.nodup

end Regular

structure MembersAmong (kin : List Json) (members : List (String × Json)) : Prop where
  items : ∀ m ∈ members, m.2.items ⊆ childrenNamed m.1 kin
  regular : ∀ m ∈ members, m.2.Regular
  sorted : (members.map (·.1)).Pairwise (· < ·)

namespace MembersAmong

variable {kin : List Json} {members : List (String × Json)} {m : String × Json}

theorem of_object (h : (object members).Regular) (hmem : object members ∈ kin) :
    MembersAmong kin members where
  items _ hm := items_subset_childrenNamed hmem h.nodup hm
  regular _ hm := h.mono (within_member hm)
  sorted := h.sorted

theorem nodup (h : MembersAmong kin members) : (members.map (·.1)).Nodup :=
  h.sorted.imp String.ne_of_lt

theorem tail (h : MembersAmong kin (m :: members)) : MembersAmong kin members where
  items i hi := h.items i (List.mem_cons_of_mem _ hi)
  regular i hi := h.regular i (List.mem_cons_of_mem _ hi)
  sorted := (List.pairwise_cons.1 h.sorted).2

end MembersAmong

end Json

end RecordPath
