import RecordPath.Proofs.Search.Termination

namespace RecordPath

variable {known element : Value → Prop} {m n n' : Nat}

structure Value.Found (known element : Value → Prop) (m n : Nat) (v : Value) : Prop where
  gathered : v.Gathered known element m n
  element : v.isList = true → element v

theorem Value.Found.mono {m' : Nat} {v : Value} (h : v.Found known element m n) (hm : m' ≤ m)
    (hn : n ≤ n') : v.Found known element m' n' :=
  ⟨h.gathered.mono hm hn, h.element⟩

/-- A list contributes its elements, and any other value itself. -/
theorem Sources.found_contribution (hs : Sources known element) {v : Value}
    (hv : v.Gathered known element m n) :
    ∀ u ∈ Search.contribution v, u.Found known element m n := by
  cases v with
  | list l =>
    intro u hu
    have he := hv.item hs u hu
    exact ⟨.known (hs.known_of_element u he), fun _ => he⟩
  | _ => exact List.forall_mem_singleton.2 ⟨hv, nofun⟩

namespace Search

variable {steps : List Step} {s t : Search} {f : Findings} {k : Nat}

/-- A search that has known values in its queue and what it has gathered from them since `m`. -/
structure Gathers (known element : Value → Prop) (m : Nat) (s : Search) : Prop where
  supply_le : m ≤ s.supply
  queued : ∀ p ∈ s.queue.toList, p.value.Gathered known element m s.supply

theorem gathers_start (root : Message) (m : Nat) (hr : known (.message root)) :
    (start root m).Gathers known element m where
  supply_le := Nat.le_refl m
  queued := by
    rw [toList_start]
    exact List.forall_mem_singleton.2 (.known hr)

theorem Gathers.advance? (hs : Sources known element) (h : s.Gathers known element m)
    (ha : s.advance? steps = some (f, t)) :
    t.Gathers known element m ∧ ∀ v ∈ f.values, v.Found known element m t.supply := by
  obtain ⟨p, queue, hpop, hcase⟩ := advance?_cases ha
  have hqueued := h.queued
  rw [OnceQueue.toList_of_pop? hpop] at hqueued
  obtain ⟨hp, hrest⟩ := List.forall_mem_cons.1 hqueued
  rcases hcase with ⟨-, hf, rfl⟩ | ⟨step, -, hf, rfl⟩
  · rw [hf]
    exact ⟨⟨h.supply_le, hrest⟩, hs.found_contribution hp⟩
  · have hle := p.supply_le_expand step s.supply
    refine ⟨⟨Nat.le_trans h.supply_le hle, fun q hq => ?_⟩, by simp [hf]⟩
    rcases (mem_pushAll [] queue _).2 q hq with hq | hq
    · exact (hrest q hq).mono (Nat.le_refl m) hle
    · exact hs.gathered_expand hp h.supply_le step q hq

theorem supply_le_advance? {key? : Pending → Option Visit}
    (ha : s.advance? steps key? = some (f, t)) : s.supply ≤ t.supply := by
  obtain ⟨p, queue, -, ⟨-, -, rfl⟩ | ⟨step, -, -, rfl⟩⟩ := advance?_cases ha
  · exact Nat.le_refl s.supply
  · exact p.supply_le_expand step s.supply

theorem Turns.supply_le (h : Turns steps k s f t) : s.supply ≤ t.supply := by
  induction h with
  | none s => exact Nat.le_refl s.supply
  | turn ha _ ih => exact Nat.le_trans (supply_le_advance? ha) ih

theorem Turns.gathers (hs : Sources known element) (ht : Turns steps k s f t)
    (h : s.Gathers known element m) :
    t.Gathers known element m ∧ ∀ v ∈ f.values, v.Found known element m t.supply := by
  induction ht with
  | none s => exact ⟨h, List.forall_mem_nil _⟩
  | turn ha hr ih =>
    obtain ⟨ht, hf⟩ := h.advance? hs ha
    obtain ⟨hu, hg⟩ := ih ht
    refine ⟨hu, fun v hv => ?_⟩
    rcases List.mem_append.1 hv with hv | hv
    · exact (hf v hv).mono (Nat.le_refl m) hr.supply_le
    · exact hg v hv

end Search

/-- What a path finds, and what has been drawn by then. -/
theorem Path.found_of_mem_find (path : Path) (hs : Sources known element) {root : Message}
    (hr : known (.message root)) (m : Nat) :
    m ≤ ((path.find root).run m).2 ∧ ∀ v ∈ ((path.find root).run m).1.values,
      v.Found known element m ((path.find root).run m).2 := by
  obtain ⟨k, found, t, hturns, -, hrun⟩ :=
    Search.exists_turns_run path.steps (.start root m)
  obtain ⟨ht, hfound⟩ := hturns.gathers hs (Search.gathers_start root m hr)
  change (path.find root).run m = _ at hrun
  rw [hrun]
  exact ⟨ht.supply_le, hfound⟩

namespace Query

theorem found_of_mem_findBranches (hs : Sources known element) {root : Message}
    (hr : known (.message root)) (paths : List Path) (m : Nat) :
    m ≤ ((findBranches root paths).run m).2 ∧
      ∀ v ∈ ((findBranches root paths).run m).1.values,
        v.Found known element m ((findBranches root paths).run m).2 := by
  induction paths generalizing m with
  | nil => exact ⟨Nat.le_refl m, List.forall_mem_nil _⟩
  | cons p rest ih =>
    obtain ⟨hle, hfound⟩ := p.found_of_mem_find hs hr m
    obtain ⟨hle', hfound'⟩ := ih ((p.find root).run m).2
    rw [run_findBranches_cons]
    refine ⟨Nat.le_trans hle hle', fun v hv => ?_⟩
    rcases List.mem_append.1 hv with hv | hv
    · exact (hfound v hv).mono (Nat.le_refl m) hle'
    · exact (hfound' v hv).mono hle (Nat.le_refl _)

/-- Whatever a query finds is known, or was gathered from what is known; of lists it finds only such
as are elements. -/
theorem found_of_mem_find (q : Query) (hs : Sources known element) {root : Message}
    (hr : known (.message root)) (m : Nat) :
    ∀ v ∈ ((q.find root).run m).1.values,
      v.Found known element m ((q.find root).run m).2 := by
  intro v hv
  -- the note that closes the search is no value
  rcases List.mem_append.1 hv with hv | hv
  · exact (found_of_mem_findBranches hs hr q.branches m).2 v hv
  · cases hv

end Query

end RecordPath
