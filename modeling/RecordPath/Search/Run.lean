import RecordPath.Query.Cursor
import RecordPath.Search.Cost
import RecordPath.Search.OnceQueue

namespace RecordPath

structure Visit where
  step : Nat
  ident : Ident
  deriving DecidableEq, Repr

namespace Visit

instance : Ord Visit where
  compare := compareLex (compareOn step) (compareOn fun v => v.ident.number)

instance : Std.TransOrd Visit :=
  inferInstanceAs (Std.TransCmp (compareLex (compareOn step) (compareOn fun v => v.ident.number)))

instance : Std.LawfulEqOrd Visit where
  eq_of_compare {a b} h := by
    obtain ⟨s, ⟨m⟩⟩ := a
    obtain ⟨t, ⟨n⟩⟩ := b
    have h' : (compare s t).then (compare m n) = .eq := h
    obtain ⟨h1, h2⟩ := Ordering.then_eq_eq.1 h'
    cases Nat.compare_eq_eq.1 h1
    cases Nat.compare_eq_eq.1 h2
    rfl

end Visit

instance : Keyed Pending Visit where
  key? p := p.value.ident?.map fun i => ⟨p.step, i⟩

/-- The step and the identity as a program has it. -/
def Pending.shownKey? (p : Pending) : Option Visit := p.value.shown?.map fun i => ⟨p.step, i⟩

/-- The state of a search: what is pending, and the next free identity. -/
structure Search where
  queue : OnceQueue Pending Visit
  supply : Nat

structure Findings where
  values : List Value
  notes : List Note

def Findings.append (a b : Findings) : Findings := ⟨a.values ++ b.values, a.notes ++ b.notes⟩

instance : Append Findings := ⟨Findings.append⟩

namespace Search

def start (root : Message) (supply : Nat) (key? : Pending → Option Visit := Keyed.key?) :
    Search where
  queue := (OnceQueue.empty.push ⟨0, .message root, none⟩ key?).2
  supply

/-- What a value contributes that has passed all steps: a list its elements, any other value
itself. -/
def contribution : Value → List Value
  | .list l => l.items
  | v => [v]

def advance? (steps : List Step) (s : Search) (key? : Pending → Option Visit := Keyed.key?) :
    Option (Findings × Search) :=
  match s.queue.pop? with
  | none => none
  | some (p, queue) =>
    match steps[p.step]? with
    | none => some (⟨contribution p.value, []⟩, ⟨queue, s.supply⟩)
    | some step =>
      let r := (p.expand step).run s.supply
      some (⟨[], r.1.notes⟩, ⟨queue.pushAll r.1.pushes key?, r.2⟩)

def cost (count : Nat) (s : Search) : Nat := total (s.queue.toList.map (Pending.cost count))

theorem cost_advance? {steps : List Step} {s s' : Search} {f : Findings}
    {key? : Pending → Option Visit} (h : s.advance? steps key? = some (f, s')) :
    s'.cost steps.length < s.cost steps.length := by
  unfold advance? at h
  split at h
  · cases h
  · rename_i p queue hpop
    have hlist := OnceQueue.toList_of_pop? hpop
    have hcost : s.cost steps.length =
        p.cost steps.length + total (queue.toList.map (Pending.cost steps.length)) := by
      rw [cost, hlist, List.map_cons, total_cons]
    rw [hcost]
    split at h <;> rename_i hstep <;>
      simp only [Option.some.injEq, Prod.mk.injEq] at h <;> obtain ⟨-, rfl⟩ := h
    · have hpos : 0 < p.cost steps.length := cost_pos _ p.value.weight_pos
      exact Nat.lt_add_of_pos_left hpos
    · rename_i step
      have hlt := (List.getElem?_eq_some_iff.1 hstep).1
      have hexp := Pending.sum_cost_expand hlt step s.supply
      obtain ⟨admitted, hsub, he⟩ :=
        queue.toList_pushAll ((p.expand step).run s.supply).1.pushes key?
      have hle := sum_map_le_of_sublist (Pending.cost steps.length) hsub
      rw [Search.cost, he, List.map_append, total_append]
      omega

/-- Goes on until nothing is pending. The state that is left holds the next free identity. -/
def run (steps : List Step) (s : Search) (key? : Pending → Option Visit := Keyed.key?) :
    Findings × Nat :=
  match h : s.advance? steps key? with
  | none => (⟨[], []⟩, s.supply)
  | some (found, s') =>
    have := cost_advance? h
    let (more, supply) := run steps s' key?
    (found ++ more, supply)
termination_by s.cost steps.length

end Search

/-- Every value that the path selects under a record, in the order of discovery. The memo of the
search goes by `key?`. -/
def Path.find (p : Path) (root : Message) (key? : Pending → Option Visit := Keyed.key?) :
    Alloc Findings :=
  fun supply => (Search.start root supply key?).run p.steps key?

namespace Query

def findBranches (root : Message) (paths : List Path)
    (key? : Pending → Option Visit := Keyed.key?) : Alloc Findings :=
  match paths with
  | [] => return ⟨[], []⟩
  | p :: rest => return (← p.find root key?) ++ (← findBranches root rest key?)

/-- Every value that the query selects under a record. -/
def find (q : Query) (root : Message) (key? : Pending → Option Visit := Keyed.key?) :
    Alloc Findings := do
  let found ← findBranches root q.branches key?
  return found ++ ⟨[], [.matched q root.type.name found.values.length]⟩

/-- The search that a program makes: its memo goes by identities as the program has them. -/
def findAll (q : Query) (root : Message) : Alloc Findings := q.find root Pending.shownKey?

end Query

end RecordPath
