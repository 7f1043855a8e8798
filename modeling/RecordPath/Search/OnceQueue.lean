import Std.Data.TreeSet

namespace RecordPath

class Keyed (α : Type) (κ : outParam Type) where
  key? : α → Option κ

/-- The items between `front` and the reverse of `back`, and the keys admitted so far. -/
structure OnceQueue (α κ : Type) [Ord κ] where
  front : List α
  back : List α
  seen : Std.TreeSet κ

namespace OnceQueue

variable {α κ : Type} [Ord κ]

def empty : OnceQueue α κ := ⟨[], [], ∅⟩

def toList (q : OnceQueue α κ) : List α := q.front ++ q.back.reverse

def length (q : OnceQueue α κ) : Nat := q.front.length + q.back.length

def isEmpty (q : OnceQueue α κ) : Bool := q.front.isEmpty && q.back.isEmpty

def pop? (q : OnceQueue α κ) : Option (α × OnceQueue α κ) :=
  match q.front with
  | a :: rest => some (a, ⟨rest, q.back, q.seen⟩)
  | [] =>
    match q.back.reverse with
    | a :: rest => some (a, ⟨rest, [], q.seen⟩)
    | [] => none

theorem pop?_eq_none {q : OnceQueue α κ} : q.pop? = none ↔ q.toList = [] := by
  unfold pop? toList
  split <;> rename_i hf <;> simp only [hf]
  · simp
  · split <;> rename_i hb <;> simp [hb]

theorem toList_of_pop? {q q' : OnceQueue α κ} {a : α} (h : q.pop? = some (a, q')) :
    q.toList = a :: q'.toList := by
  unfold pop? at h
  unfold toList
  split at h <;> rename_i hf <;> simp only [hf]
  · cases h; rfl
  · split at h <;> rename_i hb <;> cases h
    simp [hb]

variable [Keyed α κ]

/-- Queues an item unless one with the same key was queued before; tells whether it did. -/
def push (q : OnceQueue α κ) (a : α) (key? : α → Option κ := Keyed.key?) :
    Bool × OnceQueue α κ :=
  match key? a with
  | none => (true, ⟨q.front, a :: q.back, q.seen⟩)
  | some k =>
    if q.seen.contains k then (false, q)
    else (true, ⟨q.front, a :: q.back, q.seen.insert k⟩)

def pushAll (q : OnceQueue α κ) (items : List α) (key? : α → Option κ := Keyed.key?) :
    OnceQueue α κ :=
  items.foldl (fun q a => (q.push a key?).2) q

theorem toList_push (q : OnceQueue α κ) (a : α) (key? : α → Option κ) :
    (q.push a key?).2.toList = if (q.push a key?).1 then q.toList ++ [a] else q.toList := by
  unfold push
  split
  · simp [toList]
  · split <;> simp [toList]

/-- Of many items only some are admitted, and those in their order. -/
theorem toList_pushAll (q : OnceQueue α κ) (items : List α)
    (key? : α → Option κ := Keyed.key?) :
    ∃ admitted, admitted.Sublist items ∧
      (q.pushAll items key?).toList = q.toList ++ admitted := by
  induction items generalizing q with
  | nil => exact ⟨[], .slnil, by simp [pushAll]⟩
  | cons a rest ih =>
    obtain ⟨admitted, hs, he⟩ := ih (q.push a key?).2
    have hp := q.toList_push a key?
    cases hb : (q.push a key?).1 <;> rw [hb] at hp <;>
      simp only [Bool.false_eq_true, if_true, if_false] at hp
    · exact ⟨admitted, hs.cons a, by simpa [pushAll, hp] using he⟩
    · exact ⟨a :: admitted, hs.cons_cons a, by simpa [pushAll, hp] using he⟩

end OnceQueue

end RecordPath
