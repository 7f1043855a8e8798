import Mathlib.Data.List.Nodup
import RecordPath.Record.Presence

namespace RecordPath

namespace MessageType

variable {t : MessageType} {f g : Field}

theorem mem_of_field? {name : String} (h : t.field? name = some f) :
    f ∈ t.fields ∧ f.name = name := by
  refine ⟨List.mem_of_find?_eq_some h, ?_⟩
  have := List.find?_some h
  simpa using this

theorem index_injective (hf : f ∈ t.fields) (hg : g ∈ t.fields) (h : f.index = g.index) :
    f = g := by
  obtain ⟨i, hi, rfl⟩ := List.getElem_of_mem hf
  obtain ⟨j, hj, rfl⟩ := List.getElem_of_mem hg
  rw [t.index_eq i hi, t.index_eq j hj] at h
  subst h
  rfl

theorem index_lt (hf : f ∈ t.fields) : f.index < t.fields.length := by
  obtain ⟨i, hi, rfl⟩ := List.getElem_of_mem hf
  rwa [t.index_eq i hi]

theorem name_injective (hf : f ∈ t.fields) (hg : g ∈ t.fields)
    (h : f.name = g.name) : f = g :=
  List.inj_on_of_nodup_map t.nodup hf hg h

theorem field?_of_mem (hf : f ∈ t.fields) : t.field? f.name = some f := by
  cases h : t.field? f.name with
  | none => exact absurd (decide_eq_true rfl) (List.find?_eq_none.1 h f hf)
  | some g =>
    obtain ⟨hg, hname⟩ := mem_of_field? h
    rw [name_injective hg hf hname]

end MessageType

theorem MessageOf.stored?_of_mem {m : Message} {f : Field} (hf : f ∈ m.type.fields) :
    m.stored? f = (m.slots[f.index]?).join := by
  obtain ⟨i, hi, rfl⟩ := List.getElem_of_mem hf
  rw [stored?, m.type.index_eq i hi, List.getElem?_eq_getElem hi]
  exact if_pos rfl

end RecordPath
