import RecordPath.Proofs.Search.Course
import RecordPath.Proofs.Search.Defaults

namespace RecordPath

open Alloc (InStep)

variable {ρ σ : Ident → Ident → Prop}

/-- Items that correspond are let through together, if their keys correspond one by one. -/
theorem firsts_forall₂ {α κ : Type} [DecidableEq κ] {key? : α → Option κ} {R : α → α → Prop}
    {S : κ → κ → Prop} (hS : Relator.BiUnique S)
    (hkey : ∀ a b, R a b → Option.Rel S (key? a) (key? b)) {known known' : List κ}
    (hknown : List.Forall₂ S known known') {xs ys : List α} (h : List.Forall₂ R xs ys) :
    List.Forall₂ R (firsts key? known xs) (firsts key? known' ys) := by
  induction h generalizing known known' with
  | nil => exact .nil
  | @cons a b _ _ hab _ ih =>
    have hkeys := hkey a b hab
    unfold firsts
    generalize key? a = x, key? b = y at hkeys
    cases hkeys with
    | none => exact .cons hab (ih hknown)
    | @some k l hkl =>
      have hmem : k ∈ known ↔ l ∈ known' := List.rel_mem hS hkl hknown
      simp only [hmem]
      split
      · exact ih hknown
      · exact .cons hab (ih (.cons hkl hknown))

structure Visit.Paired (ρ : Ident → Ident → Prop) (v w : Visit) : Prop where
  step : w.step = v.step
  ident : ρ v.ident w.ident

theorem Visit.biUnique_paired (h : Relator.BiUnique ρ) : Relator.BiUnique (Visit.Paired ρ) := by
  constructor
  · rintro ⟨s, i⟩ ⟨t, j⟩ ⟨u, k⟩ ⟨hs, hi⟩ ⟨ht, hj⟩
    cases hs
    cases ht
    cases h.1 hi hj
    rfl
  · rintro ⟨s, i⟩ ⟨t, j⟩ ⟨u, k⟩ ⟨hs, hi⟩ ⟨ht, hj⟩
    cases hs
    cases ht
    cases h.2 hi hj
    rfl

theorem Pending.Filled.key? {p q : Pending} (h : p.Filled ρ q) :
    Option.Rel (Visit.Paired ρ) (Keyed.key? p) (Keyed.key? q) := by
  have hi := h.value.ident?
  change Option.Rel _ (p.value.ident?.map _) (q.value.ident?.map _)
  generalize p.value.ident? = x, q.value.ident? = y at hi
  cases hi with
  | none => exact .none
  | some hi => exact .some ⟨h.step, hi⟩

def Findings.Filled (ρ : Ident → Ident → Prop) (a b : Findings) : Prop :=
  List.Forall₂ (Value.Filled ρ) a.values b.values

namespace Findings.Filled

variable {a b c d : Findings}

theorem mono (hρ : Subrelation ρ σ) (h : a.Filled ρ b) : a.Filled σ b :=
  List.Forall₂.imp (fun _ _ h => h.mono hρ) h

theorem append (hab : a.Filled ρ b) (hcd : c.Filled ρ d) : (a ++ c).Filled ρ (b ++ d) :=
  List.rel_append hab hcd

end Findings.Filled

namespace Search

/-- Searches of which the second comes across the same as the first with defaults stored. -/
structure Lockstep (ρ : Ident → Ident → Prop) (gone gone' : List Pending) (s s' : Search) :
    Prop where
  pairing : Pairing ρ s.supply s'.supply
  settled : List.Forall₂ (Pending.Filled ρ) gone gone'
  queued : List.Forall₂ (Pending.Filled ρ) s.queue.toList s'.queue.toList
  remembers : s.queue.Remembers gone
  remembers' : s'.queue.Remembers gone'

variable {gone gone' : List Pending} {s s' t : Search} {f : Findings} {steps : List Step}

theorem lockstep_start {m n : Message} {k l : Nat} (hρ : Pairing ρ k l)
    (h : Value.Filled ρ (.message m) (.message n)) :
    Lockstep ρ [] [] (start m k) (start n l) where
  pairing := hρ
  settled := .nil
  queued := by
    rw [toList_start, toList_start]
    exact .cons ⟨rfl, h⟩ .nil
  remembers := (tidy_start m k).remembers
  remembers' := (tidy_start n l).remembers

namespace Lockstep

theorem mono (h : Lockstep ρ gone gone' s s') (hσ : Subrelation ρ σ) {m n : Nat}
    (hp : Pairing σ m n) : Lockstep σ gone gone' ⟨s.queue, m⟩ ⟨s'.queue, n⟩ where
  pairing := hp
  settled := h.settled.imp fun _ _ h => h.mono hσ
  queued := h.queued.imp fun _ _ h => h.mono hσ
  remembers := h.remembers
  remembers' := h.remembers'

theorem pop (h : Lockstep ρ gone gone' s s') {p q : Pending}
    {queue queue' : OnceQueue Pending Visit}
    (hp : s.queue.pop? = some (p, queue)) (hq : s'.queue.pop? = some (q, queue')) :
    p.Filled ρ q ∧
      Lockstep ρ (gone ++ [p]) (gone' ++ [q]) ⟨queue, s.supply⟩ ⟨queue', s'.supply⟩ := by
  have hqueued := h.queued
  rw [OnceQueue.toList_of_pop? hp, OnceQueue.toList_of_pop? hq, List.forall₂_cons] at hqueued
  obtain ⟨hpq, hrest⟩ := hqueued
  exact ⟨hpq, h.pairing, List.rel_append h.settled (.cons hpq .nil), hrest, h.remembers.pop hp,
    h.remembers'.pop hq⟩

/-- Of items that correspond, the queues admit the same. -/
theorem pushAll (h : Lockstep ρ gone gone' s s') {items items' : List Pending}
    (hi : List.Forall₂ (Pending.Filled ρ) items items') :
    Lockstep ρ gone gone' ⟨s.queue.pushAll items, s.supply⟩
      ⟨s'.queue.pushAll items', s'.supply⟩ where
  pairing := h.pairing
  settled := h.settled
  queued := by
    -- the keys that the queues know belong together as well, and one by one
    have hkeys := List.rel_filterMap (fun _ _ h => Pending.Filled.key? h)
      (List.rel_append h.settled h.queued)
    dsimp only
    rw [h.remembers.toList_pushAll, h.remembers'.toList_pushAll]
    exact List.rel_append h.queued (firsts_forall₂ (Visit.biUnique_paired h.pairing.unique)
      (fun _ _ h => h.key?) hkeys hi)
  remembers := (h.remembers.pushAll items).1
  remembers' := (h.remembers'.pushAll items').1

end Lockstep

theorem contribution_filled {v w : Value} (h : v.Filled ρ w) :
    List.Forall₂ (Value.Filled ρ) (contribution v) (contribution w) := by
  cases h with
  | scalar hv => cases v <;> first | exact .cons (.scalar hv) .nil | cases hv
  | message hi ht hs => exact .cons (.message hi ht hs) .nil
  | list _ hs => exact hs
  | map hi hk hs => exact .cons (.map hi hk hs) .nil

/-- What one search does in a turn, the other does as well. -/
theorem Lockstep.advance? (h : Lockstep ρ gone gone' s s') {f' : Findings} {t' : Search}
    (hs : s.advance? steps = some (f, t)) (hs' : s'.advance? steps = some (f', t')) :
    ∃ σ left left', Subrelation ρ σ ∧ Lockstep σ left left' t t' ∧ f.Filled σ f' := by
  obtain ⟨p, queue, hpop, hp⟩ := advance?_cases hs
  obtain ⟨q, queue', hpop', hq⟩ := advance?_cases hs'
  obtain ⟨hpq, hrest⟩ := h.pop hpop hpop'
  -- the oldest items are at one step, so both have passed all steps or both are expanded
  rw [hpq.step] at hq
  rcases hp with ⟨hstep, hf, rfl⟩ | ⟨step, hstep, hf, rfl⟩
  · rcases hq with ⟨-, hf', rfl⟩ | ⟨step', hstep', -⟩
    · refine ⟨ρ, _, _, id, hrest, ?_⟩
      rw [Findings.Filled, hf, hf']
      exact contribution_filled hpq.value
    · rw [hstep] at hstep'
      cases hstep'
  · rcases hq with ⟨hstep', -⟩ | ⟨step', hstep', hf', rfl⟩
    · rw [hstep] at hstep'
      cases hstep'
    · rw [hstep] at hstep'
      cases hstep'
      obtain ⟨σ, hσ, hpairing, hpushes⟩ := Pending.expand_filled hpq step _ _ h.pairing
      refine ⟨σ, _, _, hσ, (hrest.mono hσ hpairing).pushAll hpushes, ?_⟩
      rw [Findings.Filled, hf, hf']
      exact .nil

theorem Lockstep.advance?_eq_none (h : Lockstep ρ gone gone' s s') :
    s.advance? steps = none ↔ s'.advance? steps = none := by
  rw [Search.advance?_eq_none, Search.advance?_eq_none, ← List.length_eq_zero_iff,
    ← List.length_eq_zero_iff, h.queued.length_eq]

/-- Searches in step find the same. The induction is on the cost of the first one; the second takes
as many turns. -/
theorem Lockstep.run {ρ : Ident → Ident → Prop} {gone gone' : List Pending} {s s' : Search}
    (h : Lockstep ρ gone gone' s s') :
    ∃ σ, Subrelation ρ σ ∧ Pairing σ (s.run steps).2 (s'.run steps).2 ∧
      (s.run steps).1.Filled σ (s'.run steps).1 := by
  cases hs : s.advance? steps with
  | none =>
    rw [run_of_none hs, run_of_none (h.advance?_eq_none.1 hs)]
    exact ⟨ρ, id, h.pairing, .nil⟩
  | some r =>
    obtain ⟨f, t⟩ := r
    have := cost_advance? hs
    cases hs' : s'.advance? steps with
    | none =>
      rw [h.advance?_eq_none.2 hs'] at hs
      cases hs
    | some r' =>
      obtain ⟨f', t'⟩ := r'
      obtain ⟨σ, left, left', hσ, hnext, hf⟩ := h.advance? hs hs'
      obtain ⟨τ, hτ, hpairing, hfound⟩ := hnext.run
      rw [run_of_some hs, run_of_some hs']
      exact ⟨τ, fun h => hτ (hσ h), hpairing, (hf.mono hτ).append hfound⟩
termination_by s.cost steps.length

end Search

theorem Path.find_filled (p : Path) {root root' : Message}
    (h : Value.Filled ρ (.message root) (.message root')) :
    InStep Findings.Filled ρ (p.find root) (p.find root') :=
  fun _ _ hρ => (Search.lockstep_start hρ h).run

namespace Query

theorem findBranches_filled (paths : List Path) {root root' : Message}
    (h : Value.Filled ρ (.message root) (.message root')) :
    InStep Findings.Filled ρ (findBranches root paths) (findBranches root' paths) := by
  induction paths generalizing ρ with
  | nil => exact .pure .nil
  | cons p rest ih =>
    refine (p.find_filled h).bind fun σ a b hσ hab => ?_
    exact (ih (h.mono hσ)).bind fun τ c d hτ hcd => .pure ((hab.mono hτ).append hcd)

/-- In a record with defaults stored, a query finds what it finds without, with defaults stored. -/
theorem find_filled (q : Query) {root root' : Message}
    (h : Value.Filled ρ (.message root) (.message root')) :
    InStep Findings.Filled ρ (q.find root) (q.find root') := by
  refine (findBranches_filled q.branches h).bind fun σ a b hσ hab => .pure ?_
  -- the note that closes the search is no value
  exact hab.append .nil

/-- Whether fields are left unset or store their defaults is not to be seen: a query finds the same
values, as JSON, and the records are the same as JSON. -/
theorem toJson_find_filled (q : Query) {root root' : Message} {m n : Nat} (hρ : Pairing ρ m n)
    (h : Value.Filled ρ (.message root) (.message root')) :
    ((q.find root').run n).1.values.map Value.toJson =
        ((q.find root).run m).1.values.map Value.toJson ∧
      (Value.message root').toJson = (Value.message root).toJson := by
  obtain ⟨σ, -, -, hfound⟩ := q.find_filled h m n hρ
  refine ⟨?_, h.toJson⟩
  rw [← List.forall₂_eq_eq_eq, List.forall₂_map_left_iff, List.forall₂_map_right_iff]
  exact (List.Forall₂.flip hfound).imp fun _ _ h => h.toJson

end Query

namespace Bookcase

def bookType : MessageType where
  name := "Book"
  fields :=
    [⟨"title", 0, .string, .single⟩, ⟨"pages", 1, .int, .single⟩,
      ⟨"cover", 2, .enum ⟨"Cover", [("SOFT", 1), ("HARD", 2)]⟩, .single⟩]
  index_eq := by decide
  nodup := by decide

def caseType : MessageType where
  name := "Case"
  fields := [⟨"label", 0, .string, .single⟩, ⟨"books", 1, .message "Book", .repeated⟩]
  index_eq := by decide
  nodup := by decide

def book : Message := ⟨⟨0⟩, bookType, [some (.string "Emma"), none, none]⟩

def plain : Message :=
  ⟨⟨2⟩, caseType, [none, some (.list ⟨⟨1⟩, [.message book, .message book]⟩)]⟩

def bookFilled : Message := ⟨⟨10⟩, bookType, [some (.string "Emma"), some (.int 0), some (.int 1)]⟩

def filled : Message :=
  ⟨⟨12⟩, caseType,
    [some (.string ""), some (.list ⟨⟨11⟩, [.message bookFilled, .message bookFilled]⟩)]⟩

def paired (i j : Ident) : Prop := i.number < 3 ∧ j.number = i.number + 10

theorem pairing_paired : Pairing paired 3 13 where
  unique := by
    constructor
    · rintro ⟨i⟩ ⟨j⟩ ⟨k⟩ ⟨-, hik⟩ ⟨-, hjk⟩
      exact congrArg Ident.mk (Nat.add_right_cancel (hik.symm.trans hjk))
    · rintro ⟨i⟩ ⟨j⟩ ⟨k⟩ ⟨-, hij⟩ ⟨-, hik⟩
      exact congrArg Ident.mk (hij.trans hik.symm)
  below i j h := ⟨h.1, h.2 ▸ Nat.add_lt_add_right h.1 10⟩

theorem filled_plain : Value.Filled paired (.message plain) (.message filled) := by
  have hbook : Value.Filled paired (.message book) (.message bookFilled) :=
    .message ⟨by decide, rfl⟩ rfl
      (.cons (.kept (.scalar rfl)) (.cons (.stored rfl) (.cons (.stored rfl) .nil)))
  have hbooks : Value.Filled paired (.list ⟨⟨1⟩, [.message book, .message book]⟩)
      (.list ⟨⟨11⟩, [.message bookFilled, .message bookFilled]⟩) :=
    .list ⟨by decide, rfl⟩ (.cons hbook (.cons hbook .nil))
  exact .message ⟨by decide, rfl⟩ rfl (.cons (.stored rfl) (.cons (.kept hbooks) .nil))

def titles : Query :=
  ⟨[⟨[.field "books",
    .key (.binary (.compare .equal) (.property "pages") (.literal (.int 0))), .field "title"]⟩]⟩

end Bookcase

/-- Storing that a book has no pages does not change which books have none. -/
theorem Query.toJson_find_filled_bookcase :
    Pairing Bookcase.paired 3 13 ∧
      Value.Filled Bookcase.paired (.message Bookcase.plain) (.message Bookcase.filled) ∧
      ((Bookcase.titles.find Bookcase.filled).run 13).1.values.map Value.toJson =
        ((Bookcase.titles.find Bookcase.plain).run 3).1.values.map Value.toJson ∧
      (Value.message Bookcase.filled).toJson = (Value.message Bookcase.plain).toJson := by
  have hp := Bookcase.pairing_paired
  have hf := Bookcase.filled_plain
  exact ⟨hp, hf, Query.toJson_find_filled Bookcase.titles hp hf⟩

end RecordPath
