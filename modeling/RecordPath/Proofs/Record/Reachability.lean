import Mathlib.Order.Lattice.Nat
import RecordPath.Proofs.Record.Workshop

namespace RecordPath

namespace Value

/-- A hop from a record to the value of a present field, from a list to an item or from a map to the
value of an entry. -/
inductive Hop : Value → Value → Prop
  | field {m : Message} {f : Field} {v : Value} (hf : f ∈ m.type.fields) (hp : m.has f = true)
      (hv : m.stored? f = some v) : Hop (.message m) v
  | item {l : ListValue} {v : Value} (hv : v ∈ l.items) : Hop (.list l) v
  | entry {m : MapValue} {e : MapKey × Value} (he : e ∈ m.entries) : Hop (.map m) e.2

inductive Walk (u : Value) : Nat → Value → Prop
  | here : Walk u 0 u
  | hop {n : Nat} {v w : Value} (h : Walk u n v) (hw : Hop v w) : Walk u (n + 1) w

def Reaches (u v : Value) : Prop := ∃ n, Walk u n v

/-- The least number of hops that lead from one value to another. -/
noncomputable def distance (u v : Value) : Nat := sInf {n | Walk u n v}

variable {u v w : Value} {n : Nat}

theorem Reaches.refl (u : Value) : Reaches u u := ⟨0, .here⟩

theorem Reaches.hop (h : Reaches u v) (hw : Hop v w) : Reaches u w := by
  obtain ⟨n, hn⟩ := h
  exact ⟨n + 1, hn.hop hw⟩

/-- There is a walk that is as short as can be. -/
theorem Reaches.walk (h : Reaches u v) : Walk u (distance u v) v := Nat.sInf_mem h

theorem Walk.distance_le (h : Walk u n v) : distance u v ≤ n := Nat.sInf_le h

theorem eq_of_distance_eq_zero (h : Reaches u v) (hd : distance u v = 0) : v = u := by
  have hw := h.walk
  rw [hd] at hw
  cases hw
  rfl

theorem distance_hop_le (h : Reaches u v) (hw : Hop v w) : distance u w ≤ distance u v + 1 :=
  (h.walk.hop hw).distance_le

/-- The last hop of a shortest walk starts one hop nearer. -/
theorem exists_hop_of_distance (h : Reaches u w) (hd : distance u w = n + 1) :
    ∃ v, Reaches u v ∧ distance u v = n ∧ Hop v w := by
  have hwalk := h.walk
  rw [hd] at hwalk
  cases hwalk with
  | @hop _ v _ hv hw =>
    have hle := hv.distance_le
    have hlt := distance_hop_le ⟨n, hv⟩ hw
    exact ⟨v, ⟨n, hv⟩, by omega, hw⟩

theorem Hop.isContainer (h : Hop u v) : u.isContainer = true := by
  cases h <;> rfl

theorem Hop.mem_parts (h : Hop u v) : v ∈ u.parts := by
  cases h with
  | @field m f v hf hp hv =>
    exact List.mem_filterMap.2 ⟨some v, List.mem_of_getElem? (m.slot_of_stored? hv), rfl⟩
  | item hv => exact hv
  | @entry m e he => exact List.mem_map_of_mem he

theorem Reaches.contains (h : Reaches u v) : u.Contains v := by
  obtain ⟨n, hw⟩ := h
  induction hw with
  | here => exact .self
  | hop _ hw ih => exact ih.part hw.mem_parts

theorem ident?_of_isContainer (h : v.isContainer = true) : ∃ i, v.ident? = some i := by
  cases v with
  | message m => exact ⟨m.ident, rfl⟩
  | list l => exact ⟨l.ident, rfl⟩
  | map m => exact ⟨m.ident, rfl⟩
  | _ => cases h

end Value

theorem Coherent.known_of_reaches {known : Value → Prop} {supply : Nat} {u v : Value}
    (h : Coherent known supply) (hu : known u) (hr : u.Reaches v) : known v :=
  h.known_of_contains hu hr.contains

end RecordPath
