import Mathlib.Data.List.Sort
import RecordPath.Json.Basic

namespace RecordPath.Json

section Lookup

variable {κ α : Type} [BEq κ] [LawfulBEq κ] {name other : κ} {x : α} {members : List (κ × α)}

theorem lookup_cons_of_ne (h : name ≠ other) :
    ((other, x) :: members).lookup name = members.lookup name := by
  rw [List.lookup_cons, beq_false_of_ne h]

theorem lookup_eq_none_iff_not_mem : members.lookup name = none ↔ name ∉ members.map (·.1) := by
  rw [List.lookup_eq_none_iff]
  constructor
  · intro h hmem
    obtain ⟨m, hm, rfl⟩ := List.mem_map.1 hmem
    exact bne_iff_ne.1 (h m hm) rfl
  · intro h m hm
    exact bne_iff_ne.2 fun he => h (List.mem_map.2 ⟨m, hm, he.symm⟩)

theorem mem_of_lookup (h : members.lookup name = some x) : (name, x) ∈ members := by
  obtain ⟨front, rest, rfl, -⟩ := List.lookup_eq_some_iff.1 h
  simp

theorem lookup_eq_some_iff_mem (hn : (members.map (·.1)).Nodup) :
    members.lookup name = some x ↔ (name, x) ∈ members := by
  refine ⟨mem_of_lookup, fun h => ?_⟩
  induction members with
  | nil => cases h
  | cons m rest ih =>
    obtain ⟨hm, hrest⟩ := List.nodup_cons.1 hn
    rcases List.mem_cons.1 h with rfl | h
    · exact List.lookup_cons_self
    · have hne : name ≠ m.1 := by
        rintro rfl
        exact hm (List.mem_map.2 ⟨_, h, rfl⟩)
      rw [lookup_cons_of_ne hne, ih hrest h]

end Lookup

variable {α : Type} {name other : String} {x : α} {members : List (String × α)}

/-- Members that are made of things with names have some of these names. -/
theorem names_filterMap {β : Type} (f : β → String) (g : β → Option α) (xs : List β) :
    ((xs.filterMap fun x => (g x).map fun y => (f x, y)).map (·.1)).Sublist (xs.map f) := by
  induction xs with
  | nil => exact List.Sublist.refl _
  | cons x rest ih =>
    rw [List.filterMap_cons]
    cases g x with
    | none => exact ih.cons _
    | some y => exact ih.cons_cons _

/-- Members that come in the order of their names, no name twice. -/
abbrev InOrder (members : List (String × α)) : Prop := members.Pairwise fun m m' => m.1 < m'.1

theorem inOrder_of_names (h : (members.map (·.1)).Pairwise (· < ·)) : InOrder members :=
  List.pairwise_map.1 h

theorem insert_cases (name : String) (x : α) (m : String × α) (rest : List (String × α))
    (hne : name ≠ m.1) :
    (name < m.1 ∧ insert name x (m :: rest) = (name, x) :: m :: rest) ∨
      (m.1 < name ∧ insert name x (m :: rest) = m :: insert name x rest) := by
  rw [insert]
  cases hc : compare name m.1 with
  | lt => exact .inl ⟨compareOfLessAndEq_eq_lt.1 hc, rfl⟩
  | eq => exact absurd (Std.LawfulEqOrd.eq_of_compare hc) hne
  | gt =>
    have hc' : compare m.1 name = .lt := Std.OrientedCmp.lt_of_gt hc
    exact .inr ⟨compareOfLessAndEq_eq_lt.1 hc', rfl⟩

theorem perm_insert (h : name ∉ members.map (·.1)) :
    (insert name x members).Perm ((name, x) :: members) := by
  induction members with
  | nil => exact List.Perm.refl _
  | cons m rest ih =>
    obtain ⟨hne, hrest⟩ := not_or.1 (mt List.mem_cons.2 h)
    obtain ⟨-, hi⟩ | ⟨-, hi⟩ := insert_cases name x m rest hne
    · rw [hi]
    · rw [hi]
      exact ((ih hrest).cons m).trans (List.Perm.swap ..)

theorem InOrder.insert (ho : InOrder members) (h : name ∉ members.map (·.1)) :
    InOrder (insert name x members) := by
  induction members with
  | nil => exact List.pairwise_singleton ..
  | cons m rest ih =>
    obtain ⟨hne, hrest⟩ := not_or.1 (mt List.mem_cons.2 h)
    obtain ⟨hm, ho⟩ := List.pairwise_cons.1 ho
    obtain ⟨hlt, hi⟩ | ⟨hlt, hi⟩ := insert_cases name x m rest hne
    · rw [hi]
      refine List.pairwise_cons.2 ⟨List.forall_mem_cons.2 ⟨hlt, fun m' hm' => ?_⟩, ?_⟩
      · exact String.lt_trans hlt (hm m' hm')
      · exact List.pairwise_cons.2 ⟨hm, ho⟩
    · rw [hi]
      refine List.pairwise_cons.2 ⟨fun m' hm' => ?_, ih ho hrest⟩
      obtain rfl | hm' := List.mem_cons.1 ((perm_insert hrest).subset hm')
      · exact hlt
      · exact hm m' hm'

theorem sorted_foldl {front rest : List (String × α)} (ho : InOrder front)
    (hn : ((front ++ rest).map (·.1)).Nodup) :
    InOrder (rest.foldl (fun sorted m => insert m.1 m.2 sorted) front) ∧
      (rest.foldl (fun sorted m => insert m.1 m.2 sorted) front).Perm (front ++ rest) := by
  induction rest generalizing front with
  | nil => exact ⟨ho, by rw [List.append_nil, List.foldl_nil]⟩
  | cons m rest ih =>
    have hm : m.1 ∉ front.map (·.1) := by
      rw [List.map_append, List.nodup_append] at hn
      exact fun hmem => hn.2.2 m.1 hmem m.1 (by simp) rfl
    have hperm : (insert m.1 m.2 front ++ rest).Perm (front ++ m :: rest) :=
      ((perm_insert hm).append_right rest).trans List.perm_middle.symm
    obtain ⟨ho, hall⟩ := ih (ho.insert hm) ((hperm.map _).nodup_iff.2 hn)
    exact ⟨ho, hall.trans hperm⟩

theorem inOrder_sorted (hn : (members.map (·.1)).Nodup) : InOrder (sorted members) :=
  (sorted_foldl List.Pairwise.nil hn).1

theorem perm_sorted (hn : (members.map (·.1)).Nodup) : (sorted members).Perm members :=
  (sorted_foldl List.Pairwise.nil hn).2

/-- Members in order are determined by which they are. -/
theorem InOrder.eq_of_mem_iff {members' : List (String × α)} (h : InOrder members)
    (h' : InOrder members') (hm : ∀ m, m ∈ members ↔ m ∈ members') : members = members' := by
  have hasymm : Std.Antisymm fun m m' : String × α => m.1 < m'.1 :=
    ⟨fun _ _ hlt hgt => absurd hgt (String.lt_asymm hlt)⟩
  have hirrefl : Std.Irrefl fun m m' : String × α => m.1 < m'.1 :=
    ⟨fun m => String.lt_irrefl m.1⟩
  exact List.Pairwise.eq_of_mem_iff h h' hm

end RecordPath.Json
