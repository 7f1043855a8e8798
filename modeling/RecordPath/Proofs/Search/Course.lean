import RecordPath.Proofs.Search.Derivation
import RecordPath.Proofs.Search.Memory

namespace RecordPath

namespace Search

variable {steps : List Step}

/-- What is kept when the oldest item leaves the queue, whether it has passed all steps or its
expansion is offered. The items that have left are in the order in which they left. -/
structure Invariant (steps : List Step) (Inv : List Pending → Search → Prop) : Prop where
  pass : ∀ {gone s p queue}, Inv gone s → s.queue.pop? = some (p, queue) →
    steps[p.step]? = none → Inv (gone ++ [p]) ⟨queue, s.supply⟩
  expand : ∀ {gone s p queue step}, Inv gone s → s.queue.pop? = some (p, queue) →
    steps[p.step]? = some step →
      Inv (gone ++ [p]) ⟨queue.pushAll ((p.expand step).run s.supply).1.pushes,
        ((p.expand step).run s.supply).2⟩

/-- A search deals with its items in turn until none is left. -/
theorem Invariant.run {Inv : List Pending → Search → Prop} (hinv : Invariant steps Inv)
    {gone : List Pending} {s : Search} (h : Inv gone s) :
    ∃ items s', Inv (gone ++ items) s' ∧ s'.queue.toList = [] ∧
      (Search.run steps s).1.values = items.flatMap (emission steps) := by
  cases ha : s.advance? steps with
  | none => exact ⟨[], s, by simpa using h, advance?_eq_none.1 ha, run_of_advance?_eq_none ha⟩
  | some r =>
    obtain ⟨f, s'⟩ := r
    have := cost_advance? ha
    obtain ⟨p, queue, hpop, hcase⟩ := advance?_cases ha
    have hturn : Inv (gone ++ [p]) s' ∧ f.values = emission steps p := by
      rcases hcase with ⟨hs, hf, rfl⟩ | ⟨step, hs, hf, rfl⟩
      · exact ⟨hinv.pass h hpop hs, by simp [hf, emission, hs]⟩
      · exact ⟨hinv.expand h hpop hs, by simp [hf, emission, hs]⟩
    obtain ⟨items, t, ht, hempty, hv⟩ := hinv.run hturn.1
    refine ⟨p :: items, t, by simpa using ht, hempty, ?_⟩
    rw [run_of_advance? ha, hturn.2, hv, List.flatMap_cons]
termination_by s.cost steps.length

theorem toList_start {key? : Pending → Option Visit} (root : Message) (supply : Nat) :
    (start root supply key?).queue.toList = [⟨0, .message root, none⟩] := by
  rcases OnceQueue.empty.push_cases ⟨0, .message root, none⟩ key? with
    ⟨k, -, hk, -⟩ | ⟨-, hl, -⟩
  · simp [OnceQueue.empty] at hk
  · exact hl

variable {gone : List Pending} {s : Search} {p : Pending} {queue : OnceQueue Pending Visit}

/-- What a search comes to that is over after so many turns. -/
def within (steps : List Step) (turns : Nat) (s : Search)
    (key? : Pending → Option Visit := Keyed.key?) : Option (Findings × Nat) :=
  match turns with
  | 0 => none
  | turns + 1 =>
    match s.advance? steps key? with
    | none => some (⟨[], []⟩, s.supply)
    | some (f, s') => (within steps turns s' key?).map fun r => (f ++ r.1, r.2)

theorem run_of_within {key? : Pending → Option Visit} {turns : Nat} {s : Search}
    {r : Findings × Nat} (h : within steps turns s key? = some r) : run steps s key? = r := by
  induction turns generalizing s r with
  | zero => cases h
  | succ turns ih =>
    unfold within at h
    split at h
    · rename_i ha
      cases h
      exact run_of_none ha
    · rename_i f s' ha
      obtain ⟨r', hr', rfl⟩ := Option.map_eq_some_iff.1 h
      rw [run_of_some ha, ih hr']

theorem eq_of_map_within {β : Type} {key? : Pending → Option Visit} {turns : Nat} {s : Search}
    {f : Findings × Nat → β} {b : β} (h : (within steps turns s key?).map f = some b) :
    f (run steps s key?) = b := by
  obtain ⟨r, hr, hb⟩ := Option.map_eq_some_iff.1 h
  rw [run_of_within hr, hb]

/-- The oldest item moves from the queue to those that have left it. -/
theorem append_of_pop? (gone : List Pending) (hpop : s.queue.pop? = some (p, queue)) :
    gone ++ s.queue.toList = (gone ++ [p]) ++ queue.toList := by
  rw [OnceQueue.toList_of_pop? hpop, List.append_assoc, List.singleton_append]

/-- What was known when an item left the queue is known when its expansion has been offered. -/
theorem mem_pushAll {key? : Pending → Option Visit} (gone : List Pending)
    (queue : OnceQueue Pending Visit) (items : List Pending) :
    (∀ q ∈ gone ++ queue.toList, q ∈ gone ++ (queue.pushAll items key?).toList) ∧
      ∀ q ∈ gone ++ (queue.pushAll items key?).toList, q ∈ gone ++ queue.toList ∨ q ∈ items := by
  obtain ⟨admitted, hadm, hlist⟩ := queue.toList_pushAll items key?
  rw [hlist, ← List.append_assoc]
  refine ⟨fun q hq => List.mem_append_left _ hq, fun q hq => ?_⟩
  exact (List.mem_append.1 hq).imp_right fun hq => hadm.subset hq

/-- No item is lost. -/
theorem invariant_kept (steps : List Step) (kept : List Pending) :
    Invariant steps fun gone s => ∀ q ∈ kept, q ∈ gone ++ s.queue.toList where
  pass {gone _ _ _} h hpop _ q hq := append_of_pop? gone hpop ▸ h q hq
  expand {gone _ p queue _} h hpop _ q hq :=
    (mem_pushAll (gone ++ [p]) queue _).1 q (append_of_pop? gone hpop ▸ h q hq)

theorem Invariant.and {Inv Inv' : List Pending → Search → Prop} (h : Invariant steps Inv)
    (h' : Invariant steps Inv') : Invariant steps fun gone s => Inv gone s ∧ Inv' gone s where
  pass hi hpop hs := ⟨h.pass hi.1 hpop hs, h'.pass hi.2 hpop hs⟩
  expand hi hpop hs := ⟨h.expand hi.1 hpop hs, h'.expand hi.2 hpop hs⟩

structure Tidy (gone : List Pending) (s : Search) : Prop where
  remembers : s.queue.Remembers gone
  distinct : s.queue.Distinct gone

theorem tidy_start (root : Message) (supply : Nat) : (start root supply).Tidy [] where
  remembers := (OnceQueue.remembers_empty.push _).1
  distinct := by
    rw [OnceQueue.Distinct, toList_start]
    exact List.pairwise_singleton ..

theorem Tidy.pop (h : s.Tidy gone) (hpop : s.queue.pop? = some (p, queue)) (n : Nat) :
    (⟨queue, n⟩ : Search).Tidy (gone ++ [p]) where
  remembers := h.remembers.pop hpop
  distinct := by
    have hd := h.distinct
    rwa [OnceQueue.Distinct, append_of_pop? gone hpop] at hd

theorem Tidy.pushAll {m : Nat} (h : (⟨queue, m⟩ : Search).Tidy gone) (items : List Pending)
    (n : Nat) : (⟨queue.pushAll items, n⟩ : Search).Tidy gone where
  remembers := (h.remembers.pushAll items).1
  distinct := h.distinct.pushAll h.remembers items

theorem invariant_tidy (steps : List Step) : Invariant steps fun gone s => s.Tidy gone where
  pass h hpop _ := h.pop hpop _
  expand {_ s _ _ _} h hpop _ := (h.pop hpop s.supply).pushAll _ _

end Search

/-- The second branch starts to draw identities where the first one has stopped. -/
theorem Query.run_findBranches_cons {key? : Pending → Option Visit} (root : Message) (p : Path)
    (rest : List Path) (n : Nat) :
    (findBranches root (p :: rest) key?).run n =
      (((p.find root key?).run n).1 ++
          ((findBranches root rest key?).run ((p.find root key?).run n).2).1,
        ((findBranches root rest key?).run ((p.find root key?).run n).2).2) := rfl

/-- A query of one branch finds what its path finds. -/
theorem Query.values_find_singleton {key? : Pending → Option Visit} (path : Path)
    (root : Message) (supply : Nat) :
    ((Query.find ⟨[path]⟩ root key?).run supply).1.values =
      (Search.run path.steps (.start root supply key?) key?).1.values := by
  change ((Search.run path.steps (.start root supply key?) key?).1.values ++ []) ++ [] = _
  rw [List.append_nil, List.append_nil]

theorem Query.supply_find_singleton {key? : Pending → Option Visit} (path : Path)
    (root : Message) (supply : Nat) :
    ((Query.find ⟨[path]⟩ root key?).run supply).2 =
      (Search.run path.steps (.start root supply key?) key?).2 := rfl

end RecordPath
