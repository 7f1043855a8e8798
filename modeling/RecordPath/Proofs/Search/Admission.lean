import Mathlib.Data.List.Induction
import RecordPath.Proofs.Search.Memory

namespace RecordPath

section FirstKeyed

variable {α κ : Type} [DecidableEq κ]

def IsNew (key? : α → Option κ) (before : List α) (a : α) : Prop :=
  key? a = none ∨ ∀ b ∈ before, key? b ≠ key? a

instance (key? : α → Option κ) (before : List α) (a : α) : Decidable (IsNew key? before a) :=
  inferInstanceAs (Decidable (_ ∨ _))

/-- The items that have no key or are the first with their key, in their order. -/
def firstKeyed (key? : α → Option κ) (items : List α) : List α :=
  (items.zipIdx.filter fun p => IsNew key? (items.take p.2) p.1).map (·.1)

variable {key? : α → Option κ}

/-- An item at the end changes nothing for those before it. -/
theorem firstKeyed_concat (items : List α) (a : α) :
    firstKeyed key? (items ++ [a]) =
      firstKeyed key? items ++ if IsNew key? items a then [a] else [] := by
  have hbefore : (items.zipIdx.filter fun p => IsNew key? ((items ++ [a]).take p.2) p.1) =
      items.zipIdx.filter fun p => IsNew key? (items.take p.2) p.1 := by
    refine List.filter_congr fun p hp => ?_
    have hlt : p.2 < items.length := by simpa using List.snd_lt_of_mem_zipIdx hp
    rw [List.take_append_of_le_length (Nat.le_of_lt hlt)]
  unfold firstKeyed
  rw [List.zipIdx_append, List.filter_append, List.map_append, hbefore]
  congr 1
  by_cases h : IsNew key? items a <;> simp [h]

/-- Every key is on one of these items. -/
theorem exists_firstKeyed_iff (items : List α) (k : κ) :
    (∃ b ∈ firstKeyed key? items, key? b = some k) ↔ ∃ b ∈ items, key? b = some k := by
  induction items using List.reverseRecOn with
  | nil => rfl
  | append_singleton items a ih =>
    rw [firstKeyed_concat]
    by_cases h : IsNew key? items a
    · simp only [if_pos h, List.mem_append, or_and_right, exists_or, ih]
    · -- the key of an item that is left out is on an item before it
      simp only [if_neg h, List.append_nil, ih, List.mem_append, or_and_right, exists_or]
      refine ⟨.inl, fun h' => h'.elim id ?_⟩
      rintro ⟨b, hb, hk⟩
      obtain rfl := List.mem_singleton.1 hb
      rw [← hk]
      unfold IsNew at h
      push Not at h
      exact h.2

end FirstKeyed

namespace OnceQueue

variable {α κ : Type} [Ord κ]

theorem length_eq (q : OnceQueue α κ) : q.length = q.toList.length := by
  simp [length, toList]

theorem isEmpty_iff (q : OnceQueue α κ) : q.isEmpty = true ↔ q.toList = [] := by
  simp [isEmpty, toList]

variable [Keyed α κ]

/-- An item is admitted just if its key is not known. -/
theorem push_eq_true_iff (q : OnceQueue α κ) (a : α) :
    (q.push a).1 = true ↔ ∀ k, Keyed.key? a = some k → k ∉ q.seen := by
  unfold push
  split
  · rename_i hk
    simp [hk]
  · rename_i k hk
    rw [hk]
    split
    · rename_i hseen
      refine ⟨nofun, fun h => ?_⟩
      exact absurd (Std.TreeSet.mem_iff_contains.2 hseen) (h k rfl)
    · rename_i hseen
      refine ⟨?_, fun _ => rfl⟩
      rintro - _ ⟨⟩ hmem
      exact hseen (Std.TreeSet.mem_iff_contains.1 hmem)

inductive Operation (α : Type) where
  | push (item : α)
  | pop

def pushed (operations : List (Operation α)) : List α :=
  operations.filterMap fun
    | .push a => some a
    | .pop => none

/-- A queue in use, and the items that have left it, in the order in which they left. -/
structure Usage (α κ : Type) [Ord κ] where
  popped : List α
  queue : OnceQueue α κ

namespace Usage

def perform (u : Usage α κ) : Operation α → Usage α κ
  | .push a => ⟨u.popped, (u.queue.push a).2⟩
  | .pop =>
    match u.queue.pop? with
    | some (a, queue) => ⟨u.popped ++ [a], queue⟩
    | none => u

def after (operations : List (Operation α)) : Usage α κ := operations.foldl perform ⟨[], empty⟩

theorem after_concat (operations : List (Operation α)) (o : Operation α) :
    (after (operations ++ [o]) : Usage α κ) = (after operations).perform o := by
  simp [after]

variable [DecidableEq κ] {u : Usage α κ} {items : List α}

/-- The queue knows the keys it has met; what it has let through so far are the items that have no
key or are the first with their key. -/
structure Admits (u : Usage α κ) (items : List α) : Prop where
  remembers : u.queue.Remembers u.popped
  append_eq : u.popped ++ u.queue.toList = firstKeyed Keyed.key? items

theorem Admits.mem_seen_iff (h : u.Admits items) (k : κ) :
    k ∈ u.queue.seen ↔ ∃ b ∈ items, Keyed.key? b = some k := by
  rw [h.remembers k, h.append_eq, exists_firstKeyed_iff]

theorem Admits.isNew_iff (h : u.Admits items) (a : α) :
    IsNew Keyed.key? items a ↔ ∀ k, Keyed.key? a = some k → k ∉ u.queue.seen := by
  unfold IsNew
  cases hk : (Keyed.key? a : Option κ) with
  | none => simp
  | some k => simp [h.mem_seen_iff]

variable [Std.TransOrd κ] [Std.LawfulEqOrd κ]

omit [Std.LawfulEqOrd κ] in
theorem admits_empty : (⟨[], empty⟩ : Usage α κ).Admits [] := ⟨remembers_empty, rfl⟩

theorem Admits.push (h : u.Admits items) (a : α) :
    (u.perform (.push a)).Admits (items ++ [a]) where
  remembers := (h.remembers.push a).1
  append_eq := by
    change u.popped ++ (u.queue.push a).2.toList = _
    rw [firstKeyed_concat, toList_push, ← h.append_eq]
    simp only [h.isNew_iff, ← push_eq_true_iff]
    split
    · rw [List.append_assoc]
    · rw [List.append_nil]

omit [Std.TransOrd κ] [Std.LawfulEqOrd κ] in
theorem Admits.pop (h : u.Admits items) : (u.perform .pop).Admits items := by
  unfold perform
  dsimp only
  split
  · rename_i a queue hpop
    refine ⟨h.remembers.pop hpop, ?_⟩
    rw [← h.append_eq, toList_of_pop? hpop, List.append_assoc, List.singleton_append]
  · exact h

theorem admits_after (operations : List (Operation α)) :
    (after operations : Usage α κ).Admits (pushed operations) := by
  induction operations using List.reverseRecOn with
  | nil => exact admits_empty
  | append_singleton operations o ih =>
    rw [after_concat, pushed, List.filterMap_append]
    cases o with
    | push a => exact ih.push a
    | pop => simpa [pushed] using ih.pop

/-- After any pushes and pops a queue has let through, in order, the items that have no key or are
the first with their key: those that have left it and, behind them, those in it. It is such an item
that it admits next; and it is empty when all of them have left. -/
theorem popped_append_queue (operations : List (Operation α)) :
    let u : Usage α κ := after operations
    let items := pushed operations
    u.popped ++ u.queue.toList = firstKeyed Keyed.key? items ∧
      (∀ a, ((u.queue.push a).1 = true ↔ IsNew Keyed.key? items a) ∧
        firstKeyed Keyed.key? (items ++ [a]) =
          firstKeyed Keyed.key? items ++ if (u.queue.push a).1 then [a] else []) ∧
      (u.queue.pop? = none ↔ u.popped = firstKeyed Keyed.key? items) ∧
      u.queue.length = u.queue.toList.length ∧
      (u.queue.isEmpty = true ↔ u.queue.toList = []) := by
  have h : (after operations : Usage α κ).Admits (pushed operations) := admits_after operations
  have hpush (a : α) : ((after operations : Usage α κ).queue.push a).1 = true ↔
      IsNew Keyed.key? (pushed operations) a := by
    rw [push_eq_true_iff, h.isNew_iff]
  refine ⟨h.append_eq, fun a => ⟨hpush a, ?_⟩, ?_, length_eq _, isEmpty_iff _⟩
  · rw [firstKeyed_concat]
    simp only [hpush a]
  · rw [pop?_eq_none, ← h.append_eq]
    exact List.self_eq_append_right.symm

end Usage

namespace Counter

structure Parcel where
  number : Option Nat
  content : String
  deriving DecidableEq

instance : RecordPath.Keyed Parcel Nat := ⟨Parcel.number⟩

def operations : List (Operation Parcel) :=
  [.push ⟨some 1, "cup"⟩, .push ⟨some 1, "lid"⟩, .pop, .push ⟨some 1, "jug"⟩, .push ⟨none, "tea"⟩,
    .pop, .push ⟨none, "tea"⟩, .push ⟨some 2, "cup"⟩]

end Counter

/-- A number is known after its parcel has gone; parcels without a number all go. -/
theorem Usage.popped_append_queue_parcels :
    let u : Usage Counter.Parcel Nat := after Counter.operations
    u.popped = [⟨some 1, "cup"⟩, ⟨none, "tea"⟩] ∧
      u.popped ++ u.queue.toList =
        [⟨some 1, "cup"⟩, ⟨none, "tea"⟩, ⟨none, "tea"⟩, ⟨some 2, "cup"⟩] ∧
      (u.queue.push ⟨some 1, "jug"⟩).1 = false ∧ u.queue.pop? ≠ none := by
  obtain ⟨happend, hpush, hpop, -⟩ := popped_append_queue (κ := Nat) Counter.operations
  have hitems : firstKeyed Keyed.key? (pushed Counter.operations) =
      [⟨some 1, "cup"⟩, ⟨none, "tea"⟩, ⟨none, "tea"⟩, ⟨some 2, "cup"⟩] := by decide
  have hpopped : (after Counter.operations : Usage Counter.Parcel Nat).popped =
      [⟨some 1, "cup"⟩, ⟨none, "tea"⟩] := by decide
  refine ⟨hpopped, happend.trans hitems, ?_, fun h => ?_⟩
  · rw [Bool.eq_false_iff, ne_eq, (hpush _).1]
    decide
  · have := (hpop.1 h).symm.trans hpopped
    rw [hitems] at this
    cases this

end OnceQueue

end RecordPath
