import Mathlib.Tactic.Ring
import RecordPath.Proofs.Search.Course

namespace RecordPath

/-- The cost in closed form. -/
theorem cost_add_one (r n : Nat) : cost r n + 1 = (n + 1) ^ (r + 1) := by
  induction r with
  | zero => rw [cost, Nat.zero_add, pow_one]
  | succ r ih =>
    calc cost (r + 1) n + 1
      _ = (cost r n + 1) * (n + 1) := by rw [cost]; ring
      _ = (n + 1) ^ (r + 2) := by rw [ih, ← pow_succ]

namespace Search

variable {steps : List Step} {s t u : Search} {f g found : Findings} {m n : Nat}

/-- So many turns, in each of which the oldest pending item leaves the queue, lead from one state to
another; what they find is collected. -/
inductive Turns (steps : List Step) : Nat → Search → Findings → Search → Prop
  | none (s : Search) : Turns steps 0 s ⟨[], []⟩ s
  | turn {n : Nat} {s t u : Search} {f g : Findings} (h : s.advance? steps = some (f, t))
      (hr : Turns steps n t g u) : Turns steps (n + 1) s (f ++ g) u

/-- Every turn lowers the cost, whatever the queue remembers. -/
theorem Turns.length_add_cost_le (h : Turns steps n s f t) :
    n + t.cost steps.length ≤ s.cost steps.length := by
  induction h with
  | none s => exact Nat.le_of_eq (Nat.zero_add _)
  | turn h _ ih =>
    have hlt := cost_advance? h
    omega

/-- No turns go on from an empty queue, so the turns that empty it are as many as there can be. -/
theorem Turns.le_of_empty (h : Turns steps n s f t) (ht : t.queue.toList = [])
    (h' : Turns steps m s g u) : m ≤ n := by
  induction h generalizing m g with
  | none s =>
    cases h' with
    | none => exact Nat.le_refl 0
    | turn h' _ =>
      rw [advance?_eq_none.2 ht] at h'
      cases h'
  | turn h _ ih =>
    cases h' with
    | none => exact Nat.zero_le _
    | turn h' hr' =>
      cases h.symm.trans h'
      exact Nat.succ_le_succ (ih ht hr')

/-- A search takes its turns until none is left to take. -/
theorem exists_turns_run (steps : List Step) (s : Search) :
    ∃ n found t, Turns steps n s found t ∧ t.queue.toList = [] ∧
      s.run steps = (found, t.supply) := by
  cases ha : s.advance? steps with
  | none => exact ⟨0, _, s, .none s, advance?_eq_none.1 ha, run_of_none ha⟩
  | some r =>
    obtain ⟨f, s'⟩ := r
    have := cost_advance? ha
    obtain ⟨n, found, t, hturns, hempty, hrun⟩ := exists_turns_run steps s'
    exact ⟨n + 1, f ++ found, t, .turn ha hturns, hempty, by rw [run_of_some ha, hrun]⟩
termination_by s.cost steps.length

theorem cost_start (count : Nat) (root : Message) (supply : Nat) :
    (start root supply).cost count = RecordPath.cost count (Value.message root).weight := by
  rw [cost, toList_start]
  rfl

/-- A search ends: the queue is empty after a number of turns that is bounded by the steps and the
root alone, and no sequence of turns is longer. The findings are those of these turns. -/
theorem exists_turns_lt (steps : List Step) (root : Message) (supply : Nat) :
    ∃ n found t, Turns steps n (start root supply) found t ∧ t.queue.toList = [] ∧
      n < ((Value.message root).weight + 1) ^ (steps.length + 1) ∧
      (∀ m g u, Turns steps m (start root supply) g u → m ≤ n) ∧
      (start root supply).run steps = (found, t.supply) := by
  obtain ⟨n, found, t, hturns, hempty, hrun⟩ := exists_turns_run steps (start root supply)
  refine ⟨n, found, t, hturns, hempty, ?_, fun _ _ _ => hturns.le_of_empty hempty, hrun⟩
  have hle : n ≤ RecordPath.cost steps.length (Value.message root).weight := by
    rw [← cost_start _ root supply]
    exact Nat.le_trans (Nat.le_add_right ..) hturns.length_add_cost_le
  rw [← cost_add_one]
  exact Nat.lt_succ_of_le hle

end Search

end RecordPath
