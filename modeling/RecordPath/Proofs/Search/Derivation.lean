import RecordPath.Proofs.Search.Discovery
import RecordPath.Proofs.Search.FreshIdentity
import RecordPath.Search.Run

namespace RecordPath

/-- The items that a path leads to from a root, whatever was met before. Each expansion may draw any
identities from `supply` on. -/
inductive Derives (steps : List Step) (root : Message) (supply : Nat) : Pending → Prop
  | root : Derives steps root supply ⟨0, .message root, none⟩
  | next {p q : Pending} {step : Step} {n : Nat} (h : Derives steps root supply p)
      (hs : steps[p.step]? = some step) (hn : supply ≤ n)
      (hq : q ∈ ((p.expand step).run n).1.pushes) : Derives steps root supply q

namespace Search

/-- The values that a search yields which admits every item. -/
def exhaust (steps : List Step) (pending : List Pending) (supply : Nat) : List Value :=
  match pending with
  | [] => []
  | p :: rest =>
    match _h : steps[p.step]? with
    | none => contribution p.value ++ exhaust steps rest supply
    | some step =>
      exhaust steps (rest ++ ((p.expand step).run supply).1.pushes) ((p.expand step).run supply).2
termination_by total (pending.map (Pending.cost steps.length))
decreasing_by
  · have := cost_pos (steps.length - p.step) p.value.weight_pos
    simp only [List.map_cons, total_cons, Pending.cost]
    omega
  · have := Pending.sum_cost_expand (List.getElem?_eq_some_iff.1 _h).1 step supply
    simp only [List.map_cons, List.map_append, total_cons, total_append]
    omega

def emission (steps : List Step) (p : Pending) : List Value :=
  match steps[p.step]? with
  | none => contribution p.value
  | some _ => []

variable {steps : List Step} {s s' : Search} {f : Findings} {supply : Nat}
  {key? : Pending → Option Visit}

/-- All that one turn of a search can do: the oldest item goes, and it contributes itself when it
has passed all steps, or else its expansion is offered to the queue. -/
theorem advance?_cases (h : s.advance? steps key? = some (f, s')) :
    ∃ p queue, s.queue.pop? = some (p, queue) ∧
      ((steps[p.step]? = none ∧ f.values = contribution p.value ∧ s' = ⟨queue, s.supply⟩) ∨
        ∃ step, steps[p.step]? = some step ∧ f.values = [] ∧
          s' = ⟨queue.pushAll ((p.expand step).run s.supply).1.pushes key?,
            ((p.expand step).run s.supply).2⟩) := by
  unfold advance? at h
  split at h
  · cases h
  · rename_i p queue hp
    refine ⟨p, queue, hp, ?_⟩
    split at h
    · rename_i hs
      cases h
      exact .inl ⟨hs, rfl, rfl⟩
    · rename_i step hs
      cases h
      exact .inr ⟨step, hs, rfl, rfl⟩

theorem advance?_eq_none : s.advance? steps key? = none ↔ s.queue.toList = [] := by
  rw [← OnceQueue.pop?_eq_none]
  unfold advance?
  split
  · rename_i h
    simp [h]
  · rename_i p queue h
    rw [h]
    split <;> simp

theorem run_of_none (h : s.advance? steps key? = none) :
    s.run steps key? = (⟨[], []⟩, s.supply) := by
  rw [run]
  split
  · rfl
  · rename_i h'
    rw [h] at h'
    cases h'

theorem run_of_some (h : s.advance? steps key? = some (f, s')) :
    s.run steps key? = (f ++ (s'.run steps key?).1, (s'.run steps key?).2) := by
  rw [run]
  split
  · rename_i h'
    rw [h] at h'
    cases h'
  · rename_i h'
    rw [h] at h'
    cases h'
    rfl

theorem run_of_advance?_eq_none (h : s.advance? steps = none) :
    (s.run steps).1.values = [] := by
  rw [run_of_none h]

theorem run_of_advance? (h : s.advance? steps = some (f, s')) :
    (s.run steps).1.values = f.values ++ (s'.run steps).1.values := by
  rw [run_of_some h]
  rfl

theorem map_contribution_congr {v w : Value} (h : v.eraseFresh supply = w.eraseFresh supply) :
    (contribution v).map (Value.eraseFresh supply) =
      (contribution w).map (Value.eraseFresh supply) := by
  rcases Value.cases_of_eraseFresh h with rfl | ⟨i, j, items, rfl, rfl⟩ | ⟨i, j, k, es, rfl, rfl⟩
  · rfl
  · rfl
  · exact congrArg (fun u => [u]) h

end Search

end RecordPath
