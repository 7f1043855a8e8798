import Mathlib.Data.List.Forall2
import RecordPath.Eval.Context
import RecordPath.Json.Rendering
import RecordPath.Proofs.Search.Discovery

namespace RecordPath

/-- What a field holds in two records, the second of which may store its default where the first
stores nothing. -/
inductive SlotFilled (R : Value → Value → Prop) : Option Value → Option Value → Field → Prop
  | empty {f : Field} : SlotFilled R none none f
  | kept {f : Field} {v w : Value} (h : R v w) : SlotFilled R (some v) (some w) f
  | stored {f : Field} {d : Value} (hd : f.default? = some d) : SlotFilled R none (some d) f

inductive SlotsFilled (R : Value → Value → Prop) :
    List (Option Value) → List (Option Value) → List Field → Prop
  | nil {fields : List Field} : SlotsFilled R [] [] fields
  | cons {f : Field} {fields : List Field} {x y : Option Value} {xs ys : List (Option Value)}
      (h : SlotFilled R x y f) (hs : SlotsFilled R xs ys fields) :
      SlotsFilled R (x :: xs) (y :: ys) (f :: fields)

inductive EntryFilled (R : Value → Value → Prop) : MapKey × Value → MapKey × Value → Prop
  | mk (key : MapKey) {v w : Value} (h : R v w) : EntryFilled R (key, v) (key, w)

namespace Value

/-- The second value is the first with defaults stored in any of its empty fields, at any depth,
and with other identities, which `ρ` pairs with those of the first. -/
inductive Filled (ρ : Ident → Ident → Prop) : Value → Value → Prop
  | scalar {v : Value} (hv : v.ident? = none) : Filled ρ v v
  | message {m n : Message} (hi : ρ m.ident n.ident) (ht : n.type = m.type)
      (hs : SlotsFilled (Filled ρ) m.slots n.slots m.type.fields) :
      Filled ρ (.message m) (.message n)
  | list {l k : ListValue} (hi : ρ l.ident k.ident) (hs : List.Forall₂ (Filled ρ) l.items k.items) :
      Filled ρ (.list l) (.list k)
  | map {m n : MapValue} (hi : ρ m.ident n.ident) (hk : n.keyKind = m.keyKind)
      (hs : List.Forall₂ (EntryFilled (Filled ρ)) m.entries n.entries) :
      Filled ρ (.map m) (.map n)

variable {ρ σ : Ident → Ident → Prop} {P : Value → Value → Prop} {v w : Value}

structure Inherited (ρ : Ident → Ident → Prop) (P : Value → Value → Prop) : Prop where
  scalar : ∀ v, v.ident? = none → P v v
  message : ∀ m n : Message, ρ m.ident n.ident → n.type = m.type →
    SlotsFilled (fun v w => Filled ρ v w ∧ P v w) m.slots n.slots m.type.fields →
      P (.message m) (.message n)
  list : ∀ l k : ListValue, ρ l.ident k.ident →
    List.Forall₂ (fun v w => Filled ρ v w ∧ P v w) l.items k.items → P (.list l) (.list k)
  map : ∀ m n : MapValue, ρ m.ident n.ident → n.keyKind = m.keyKind →
    List.Forall₂ (EntryFilled fun v w => Filled ρ v w ∧ P v w) m.entries n.entries →
      P (.map m) (.map n)

namespace Inherited

mutual

theorem of_filled {v w : Value} (hP : Inherited ρ P) (h : Filled ρ v w) : P v w := by
  match v, h with
  | v, .scalar hv => exact hP.scalar v hv
  | .message ⟨_, _, _⟩, .message hi ht hs => exact hP.message _ _ hi ht (hP.of_slots hs)
  | .list ⟨_, _⟩, .list hi hs => exact hP.list _ _ hi (hP.of_items hs)
  | .map ⟨_, _, _⟩, .map hi hk hs => exact hP.map _ _ hi hk (hP.of_entries hs)
termination_by structural v

theorem of_slots {xs ys : List (Option Value)} {fields : List Field} (hP : Inherited ρ P)
    (hs : SlotsFilled (Filled ρ) xs ys fields) :
    SlotsFilled (fun v w => Filled ρ v w ∧ P v w) xs ys fields := by
  match xs, hs with
  | [], .nil => exact .nil
  | none :: _, .cons .empty hs => exact .cons .empty (hP.of_slots hs)
  | none :: _, .cons (.stored hd) hs => exact .cons (.stored hd) (hP.of_slots hs)
  | some _ :: _, .cons (.kept h) hs => exact .cons (.kept ⟨h, hP.of_filled h⟩) (hP.of_slots hs)
termination_by structural xs

theorem of_items {xs ys : List Value} (hP : Inherited ρ P)
    (hs : List.Forall₂ (Filled ρ) xs ys) :
    List.Forall₂ (fun v w => Filled ρ v w ∧ P v w) xs ys := by
  match xs, hs with
  | [], .nil => exact .nil
  | _ :: _, .cons h hs => exact .cons ⟨h, hP.of_filled h⟩ (hP.of_items hs)
termination_by structural xs

theorem of_entries {xs ys : List (MapKey × Value)} (hP : Inherited ρ P)
    (hs : List.Forall₂ (EntryFilled (Filled ρ)) xs ys) :
    List.Forall₂ (EntryFilled fun v w => Filled ρ v w ∧ P v w) xs ys := by
  match xs, hs with
  | [], .nil => exact .nil
  | (_, _) :: _, .cons (.mk key h) hs =>
    exact .cons (.mk key ⟨h, hP.of_filled h⟩) (hP.of_entries hs)
termination_by structural xs

end

end Inherited

end Value

section Imp

variable {R S : Value → Value → Prop}

theorem SlotFilled.imp {x y : Option Value} {f : Field} (hRS : ∀ v w, R v w → S v w)
    (h : SlotFilled R x y f) : SlotFilled S x y f := by
  cases h with
  | empty => exact .empty
  | kept h => exact .kept (hRS _ _ h)
  | stored hd => exact .stored hd

theorem SlotsFilled.imp {xs ys : List (Option Value)} {fields : List Field}
    (hRS : ∀ v w, R v w → S v w) (hs : SlotsFilled R xs ys fields) :
    SlotsFilled S xs ys fields := by
  induction hs with
  | nil => exact .nil
  | cons h _ ih => exact .cons (h.imp hRS) ih

theorem EntryFilled.imp {x y : MapKey × Value} (hRS : ∀ v w, R v w → S v w)
    (h : EntryFilled R x y) : EntryFilled S x y := by
  cases h with
  | mk key h => exact .mk key (hRS _ _ h)

theorem isEmpty_of_forall₂ {α β : Type} {R : α → β → Prop} {xs : List α} {ys : List β}
    (h : List.Forall₂ R xs ys) : ys.isEmpty = xs.isEmpty := by
  cases h <;> rfl

theorem SlotsFilled.join_getElem? {xs ys : List (Option Value)} {fields : List Field}
    (hs : SlotsFilled R xs ys fields) {k : Nat} (hk : k < fields.length) :
    SlotFilled R (xs[k]?).join (ys[k]?).join fields[k] := by
  induction hs generalizing k with
  | nil => exact .empty
  | cons h _ ih =>
    cases k with
    | zero => exact h
    | succ k => exact ih (Nat.lt_of_succ_lt_succ hk)

end Imp

namespace Field

variable {f : Field} {d v : Value}

theorem isPresent_of_default (hv : v.ident? = none) (hd : f.default? = some d) :
    f.isPresent v = !(d == v) := by
  cases v with
  | message | list | map => cases hv
  | _ => simp only [isPresent, hd]

theorem single_of_default (hd : f.default? = some d) : f.cardinality = .single := by
  unfold default? at hd
  split at hd
  · assumption
  · cases hd

/-- A default passes the check of its field, so a program can store it. -/
theorem accept_default (hd : f.default? = some d) (fresh : Ident) : f.accept fresh d = .ok d := by
  unfold accept
  rw [single_of_default hd]
  change f.acceptElement d = .ok d
  unfold default? at hd
  unfold acceptElement
  split at hd
  · split at hd <;> rename_i hk <;> cases hd <;> rw [hk]
  · cases hd

theorem default_beq_self (hd : f.default? = some d) : (d == d) = true := by
  change Value.same d d = true
  unfold default? at hd
  split at hd
  · split at hd <;> cases hd
    case h_5 => decide
    all_goals exact beq_self_eq_true _
  · cases hd

theorem isPresent_default (hd : f.default? = some d) : f.isPresent d = false := by
  rw [isPresent_of_default (ident?_default hd) hd, default_beq_self hd, Bool.not_true]

end Field

namespace Value

variable {ρ σ : Ident → Ident → Prop} {v w : Value}

theorem Filled.mono (hρ : Subrelation ρ σ) (h : Filled ρ v w) : Filled σ v w := by
  refine Inherited.of_filled ?_ h
  constructor
  · exact fun v hv => .scalar hv
  · exact fun m n hi ht hs => .message (hρ hi) ht (hs.imp fun _ _ h => h.2)
  · exact fun l k hi hs => .list (hρ hi) (hs.imp fun _ _ h => h.2)
  · exact fun m n hi hk hs => .map (hρ hi) hk (hs.imp fun _ _ h => h.imp fun _ _ h => h.2)

theorem Filled.ident? (h : Filled ρ v w) : Option.Rel ρ v.ident? w.ident? := by
  cases h with
  | scalar hv => rw [hv]; exact .none
  | message hi | list hi | map hi => exact .some hi

theorem Filled.isContainer (h : Filled ρ v w) : w.isContainer = v.isContainer := by
  cases h <;> rfl

theorem Filled.isPresent (h : Filled ρ v w) (f : Field) : f.isPresent w = f.isPresent v := by
  cases h with
  | scalar | message => rfl
  | list _ hs => exact congrArg not (isEmpty_of_forall₂ hs)
  | map _ _ hs => exact congrArg not (isEmpty_of_forall₂ hs)

section Rendering

def SameJson (v w : Value) : Prop := ∀ names, w.render names = v.render names

theorem renderFields_filled {xs ys : List (Option Value)} {fields : List Field}
    (hs : SlotsFilled (fun v w => Filled ρ v w ∧ SameJson v w) xs ys fields) :
    renderFields fields ys = renderFields fields xs := by
  induction hs with
  | nil => rfl
  | @cons f _ _ _ _ _ h _ ih =>
    cases h with
    | empty => exact ih
    | kept h => rw [renderFields, renderFields, h.1.isPresent, h.2, ih]
    | stored hd =>
      rw [renderFields, renderFields, f.isPresent_default hd, ih]
      rfl

theorem renderItems_filled {xs ys : List Value} {names : Int64 → Option String}
    (hs : List.Forall₂ (fun v w => Filled ρ v w ∧ SameJson v w) xs ys) :
    renderItems ys names = renderItems xs names := by
  induction hs with
  | nil => rfl
  | cons h _ ih => rw [renderItems, renderItems, h.2, ih]

theorem renderEntries_filled {xs ys : List (MapKey × Value)} {names : Int64 → Option String}
    (hs : List.Forall₂ (EntryFilled fun v w => Filled ρ v w ∧ SameJson v w) xs ys) :
    renderEntries ys names = renderEntries xs names := by
  induction hs with
  | nil => rfl
  | cons h _ ih =>
    obtain ⟨key, -, h⟩ := h
    rw [renderEntries, renderEntries, h, ih]

/-- JSON does not show the defaults that are stored. -/
theorem Filled.sameJson (h : Filled ρ v w) : SameJson v w := by
  refine Inherited.of_filled ?_ h
  constructor
  · exact fun _ _ _ => rfl
  · intro ⟨_, t, xs⟩ ⟨_, u, ys⟩ _ ht hs names
    cases ht
    exact congrArg (fun fields => Json.object (Json.sorted fields)) (renderFields_filled hs)
  · exact fun l k _ hs names => congrArg Json.array (renderItems_filled hs)
  · exact fun m n _ _ hs names =>
      congrArg (fun entries => Json.object (Json.sorted entries)) (renderEntries_filled hs)

theorem Filled.toJson (h : Filled ρ v w) : w.toJson = v.toJson := h.sameJson _

end Rendering

end Value

namespace MessageOf

variable {ρ : Ident → Ident → Prop} {m n : Message} {f : Field}

theorem type_filled (h : Value.Filled ρ (.message m) (.message n)) : n.type = m.type := by
  cases h with
  | scalar => rfl
  | message _ ht => exact ht

theorem slotFilled_stored? (h : Value.Filled ρ (.message m) (.message n))
    (hf : f ∈ m.type.fields) : SlotFilled (Value.Filled ρ) (m.stored? f) (n.stored? f) f := by
  obtain ⟨k, hk, rfl⟩ := List.getElem_of_mem hf
  cases h with
  | scalar hv => cases hv
  | message _ ht hs =>
    have hn := n.stored?_getElem (ht ▸ hk)
    simp only [ht] at hn
    rw [m.stored?_getElem hk, hn]
    exact hs.join_getElem? hk

theorem has_filled (h : Value.Filled ρ (.message m) (.message n)) (hf : f ∈ m.type.fields) :
    n.has f = m.has f := by
  have hslot := slotFilled_stored? h hf
  unfold has
  generalize m.stored? f = x, n.stored? f = y at hslot
  cases hslot with
  | empty => rfl
  | kept h => exact h.isPresent f
  | stored hd => exact f.isPresent_default hd

theorem hasAny_filled (h : Value.Filled ρ (.message m) (.message n)) : n.hasAny = m.hasAny :=
  hasAny_congr (type_filled h) fun _ hf => has_filled h hf

theorem scalar_filled (h : Value.Filled ρ (.message m) (.message n)) (hf : f ∈ m.type.fields) :
    n.scalar f = m.scalar f := by
  have hslot := slotFilled_stored? h hf
  unfold scalar
  generalize m.stored? f = x, n.stored? f = y at hslot
  cases hslot with
  | empty => rfl
  | kept h =>
    cases h with
    | scalar => rfl
    | message | list | map => cases f.kind <;> rfl
  | stored hd => rw [hd]; rfl

theorem isVacant_filled (h : Value.Filled ρ (.message m) (.message n)) (hf : f ∈ m.type.fields) :
    n.isVacant f = m.isVacant f := by
  have hslot := slotFilled_stored? h hf
  unfold isVacant
  generalize m.stored? f = x, n.stored? f = y at hslot
  cases hslot with
  | empty | kept => rfl
  | stored hd => simp [Field.single_of_default hd]

theorem getAs_filled (h : Value.Filled ρ (.message m) (.message n)) (hf : f ∈ m.type.fields)
    {i j : Ident} (hij : m.isVacant f = true → ρ i j) :
    Option.Rel (Value.Filled ρ) (m.getAs f i) (n.getAs f j) := by
  have hslot := slotFilled_stored? h hf
  unfold isVacant at hij
  unfold getAs
  generalize m.stored? f = x, n.stored? f = y at hslot hij
  cases hslot with
  | empty =>
    cases hc : f.cardinality with
    | repeated => exact .some (.list (hij (by rw [hc]; rfl)) .nil)
    | map kind => exact .some (.map (hij (by rw [hc]; rfl)) rfl .nil)
    | single =>
      cases hd : f.default? with
      | none => exact .none
      | some d => exact .some (.scalar (Field.ident?_default hd))
  | kept h => exact .some h
  | stored hd =>
    rw [Field.single_of_default hd, hd]
    exact .some (.scalar (Field.ident?_default hd))

/-- No default that is stored joins the fields that are present. -/
theorem present_filled (h : Value.Filled ρ (.message m) (.message n)) :
    List.Forall₂ (fun x y => Value.Filled ρ x.2 y.2) m.present n.present := by
  unfold present
  rw [type_filled h]
  refine List.rel_filterMap (R := fun f g => g = f ∧ f ∈ m.type.fields) ?_
    (List.forall₂_same.2 fun f hf => ⟨rfl, hf⟩)
  rintro _ f ⟨rfl, hf⟩
  have hslot := slotFilled_stored? h hf
  dsimp only
  rw [has_filled h hf]
  cases hhas : m.has f with
  | false => exact .none
  | true =>
    unfold has at hhas
    generalize m.stored? f = x, n.stored? f = y at hslot hhas ⊢
    cases hslot with
    | empty | stored => cases hhas
    | kept h => exact .some h

end MessageOf

end RecordPath
