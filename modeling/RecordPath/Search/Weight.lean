import RecordPath.Search.Expansion

namespace RecordPath

def total : List Nat → Nat
  | [] => 0
  | n :: rest => n + total rest

@[simp] theorem total_nil : total [] = 0 := rfl

@[simp] theorem total_cons (n : Nat) (rest : List Nat) : total (n :: rest) = n + total rest := rfl

@[simp] theorem total_append (ms ns : List Nat) : total (ms ++ ns) = total ms + total ns := by
  induction ms with
  | nil => simp
  | cons m rest ih => simp only [List.cons_append, total_cons, ih, Nat.add_assoc]

namespace Value

mutual

def weight : Value → Nat
  | message ⟨_, type, slots⟩ => 1 + type.fields.length + slotsWeight slots
  | list ⟨_, items⟩ => 1 + itemsWeight items
  | map ⟨_, _, entries⟩ => 1 + entriesWeight entries
  | bool _ | int _ | uint _ | float _ | string _ | bytes _ => 1
termination_by structural v => v

def slotsWeight : List (Option Value) → Nat
  | [] => 0
  | none :: rest => slotsWeight rest
  | some v :: rest => weight v + slotsWeight rest
termination_by structural vs => vs

def itemsWeight : List Value → Nat
  | [] => 0
  | v :: rest => weight v + itemsWeight rest
termination_by structural vs => vs

def entriesWeight : List (MapKey × Value) → Nat
  | [] => 0
  | (_, v) :: rest => weight v + entriesWeight rest
termination_by structural vs => vs

end

theorem weight_pos (v : Value) : 0 < v.weight := by
  cases v <;> simp only [weight] <;> omega

theorem itemsWeight_eq (vs : List Value) : itemsWeight vs = total (vs.map weight) := by
  induction vs with
  | nil => rfl
  | cons v rest ih => simp [itemsWeight, ih]

theorem entriesWeight_eq (es : List (MapKey × Value)) :
    entriesWeight es = total (es.map fun e => e.2.weight) := by
  induction es with
  | nil => rfl
  | cons e rest ih => simp [entriesWeight, ih]

end Value

/-- The weight of what a slot reads as: an empty slot may read as a default. -/
def slotWeight : Option Value → Nat
  | none => 1
  | some v => v.weight

/-- The cost of an item with `r` steps ahead of it and a value of weight `n`. -/
def cost : Nat → Nat → Nat
  | 0, n => n
  | r + 1, n => cost r n * (n + 1) + n

theorem cost_pos {n : Nat} (r : Nat) (h : 0 < n) : 0 < cost r n := by
  cases r with
  | zero => exact h
  | succ r => exact Nat.lt_of_lt_of_le h (Nat.le_add_left ..)

theorem cost_mono (r : Nat) {m n : Nat} (h : m ≤ n) : cost r m ≤ cost r n := by
  induction r with
  | zero => exact h
  | succ r ih =>
    have : cost r m * (m + 1) ≤ cost r n * (n + 1) := Nat.mul_le_mul ih (Nat.succ_le_succ h)
    simp only [cost]
    omega

/-- A descent costs more than the same value one step on and all that is below it. -/
theorem cost_descend (r n : Nat) : cost (r + 1) n + cost r (n + 1) < cost (r + 1) (n + 1) := by
  have h1 : cost r n * (n + 1) ≤ cost r (n + 1) * (n + 1) :=
    Nat.mul_le_mul_right _ (cost_mono r (Nat.le_succ n))
  have h2 : cost r (n + 1) * (n + 1 + 1) = cost r (n + 1) * (n + 1) + cost r (n + 1) := rfl
  simp only [cost]
  omega

theorem cost_lt {r n : Nat} (h : 0 < n) : cost r n < cost (r + 1) n := by
  obtain ⟨k, rfl⟩ : ∃ k, n = k + 1 := ⟨n - 1, by omega⟩
  have := cost_descend r k
  omega

theorem cost_add (r a b : Nat) : cost r a + cost r b ≤ cost r (a + b) := by
  induction r with
  | zero => exact Nat.le_refl _
  | succ r ih =>
    have h1 := Nat.mul_le_mul_right (a + b + 1) ih
    have h2 : cost r a * (a + 1) ≤ cost r a * (a + b + 1) := Nat.mul_le_mul_left _ (by omega)
    have h3 : cost r b * (b + 1) ≤ cost r b * (a + b + 1) := Nat.mul_le_mul_left _ (by omega)
    rw [Nat.add_mul] at h1
    simp only [cost]
    omega

theorem sum_cost_le (r : Nat) (ws : List Nat) : total (ws.map (cost r)) ≤ cost r (total ws) := by
  induction ws with
  | nil => exact Nat.zero_le _
  | cons w rest ih =>
    have := cost_add r w (total rest)
    simp only [List.map_cons, total_cons]
    omega

theorem sum_le_of_sublist {ws vs : List Nat} (h : ws.Sublist vs) : total ws ≤ total vs := by
  induction h with
  | slnil => simp
  | cons w _ ih => simp only [total_cons]; omega
  | cons_cons w _ ih => simp only [total_cons]; omega

namespace Pending

def cost (count : Nat) (p : Pending) : Nat := RecordPath.cost (count - p.step) p.value.weight

end Pending

/-- What items that are all at one step cost, by their weights. -/
theorem sum_cost_map (count step : Nat) (ps : List Pending) (h : ∀ p ∈ ps, p.step = step) :
    total (ps.map (Pending.cost count)) ≤
      cost (count - step) (total (ps.map fun p => p.value.weight)) := by
  have he : ps.map (Pending.cost count) =
      (ps.map fun p => p.value.weight).map (cost (count - step)) := by
    simp only [List.map_map]
    apply List.map_congr_left
    intro p hp
    simp [Pending.cost, h p hp]
  rw [he]
  exact sum_cost_le _ _

/-- What a slot reads as weighs at most one more than the slot. -/
theorem slotWeight_drop (slots : List (Option Value)) (k : Nat) :
    slotWeight (slots[k]?).join + Value.slotsWeight (slots.drop (k + 1)) ≤
      1 + Value.slotsWeight (slots.drop k) := by
  by_cases hs : k < slots.length
  · rw [List.drop_eq_getElem_cons hs, List.getElem?_eq_getElem hs]
    cases slots[k] <;> simp [slotWeight, Value.slotsWeight]
  · rw [List.getElem?_eq_none (by omega), List.drop_eq_nil_of_le (by omega),
      List.drop_eq_nil_of_le (by omega)]
    simp [slotWeight, Value.slotsWeight]

theorem Field.weight_default {f : Field} {v : Value} (h : f.default? = some v) : v.weight = 1 := by
  unfold default? at h
  split at h
  · revert h
    cases f.kind <;> intro h <;> cases h <;> rfl
  · cases h

theorem MessageType.fieldsNamed_sublist (t : MessageType) (name : String) :
    (t.fieldsNamed name).Sublist t.fields := by
  unfold fieldsNamed
  split
  · exact List.Sublist.refl _
  · unfold field?
    cases hf : t.fields.find? fun f => f.name = name with
    | none => exact List.nil_sublist _
    | some f => exact List.singleton_sublist.2 (List.mem_of_find?_eq_some hf)

namespace MessageOf

def readWeight (m : Message) (f : Field) : Nat := slotWeight (m.stored? f)

theorem stored?_getElem (m : Message) {k : Nat} (hk : k < m.type.fields.length) :
    m.stored? m.type.fields[k] = (m.slots[k]?).join := by
  simp [stored?, m.type.index_eq k hk, List.getElem?_eq_getElem hk]

theorem sum_readWeight_drop_le (m : Message) (k : Nat) :
    total ((m.type.fields.drop k).map m.readWeight) ≤
      (m.type.fields.length - k) + Value.slotsWeight (m.slots.drop k) := by
  by_cases hk : k < m.type.fields.length
  · have ih := sum_readWeight_drop_le m (k + 1)
    have hd := slotWeight_drop m.slots k
    rw [List.drop_eq_getElem_cons hk, List.map_cons, total_cons, readWeight,
      m.stored?_getElem hk]
    omega
  · rw [List.drop_eq_nil_of_le (by omega)]
    simp
termination_by m.type.fields.length - k

/-- The fields that a step selects weigh less than the message. -/
theorem sum_readWeight_fieldsNamed (m : Message) (name : String) :
    total ((m.type.fieldsNamed name).map m.readWeight) < (Value.message m).weight := by
  have hall := m.sum_readWeight_drop_le 0
  rw [List.drop_zero, List.drop_zero, Nat.sub_zero] at hall
  have hle := sum_le_of_sublist ((m.type.fieldsNamed_sublist name).map m.readWeight)
  simp only [Value.weight]
  omega

theorem weight_getAs_le {m : Message} {f : Field} {fresh : Ident} {v : Value}
    (h : m.getAs f fresh = some v) : v.weight ≤ m.readWeight f := by
  unfold getAs at h
  unfold readWeight
  split at h <;> rename_i hw <;> rw [hw]
  · cases h; exact Nat.le_refl _
  · simp only [slotWeight]
    split at h
    · cases h; simp [Value.weight, Value.itemsWeight]
    · cases h; simp [Value.weight, Value.entriesWeight]
    · exact Nat.le_of_eq (Field.weight_default h)

theorem weight_of_present {m : Message} :
    total (m.present.map fun p => p.2.weight) < (Value.message m).weight := by
  have hall := m.sum_readWeight_drop_le 0
  rw [List.drop_zero, List.drop_zero, Nat.sub_zero] at hall
  have key (fs : List Field) :
      total ((fs.filterMap fun f => if m.has f then (m.stored? f).map fun v => (f, v) else none).map
        fun p => p.2.weight) ≤ total (fs.map m.readWeight) := by
    induction fs with
    | nil => simp
    | cons f rest ih =>
      rw [List.filterMap_cons, List.map_cons, total_cons]
      split
      · omega
      · rename_i p hp
        split at hp
        · obtain ⟨v, hv, rfl⟩ := Option.map_eq_some_iff.1 hp
          simp only [List.map_cons, total_cons, readWeight, hv, slotWeight] at ih ⊢
          omega
        · cases hp
  have := key m.type.fields
  simp only [present, Value.weight]
  omega

end MessageOf

namespace Field

theorem weight_renameOrdinal (f : Field) (v : Value) : (f.renameOrdinal v).weight = v.weight := by
  unfold renameOrdinal
  split
  · split <;> rfl
  · rfl

theorem weight_nameOrdinals (f : Field) (fresh : Ident) (v : Value) :
    (f.nameOrdinals fresh v).weight = v.weight := by
  unfold nameOrdinals
  split
  · split
    · simp [Value.weight, Value.itemsWeight_eq, Function.comp_def, weight_renameOrdinal]
    · simp [Value.weight, Value.entriesWeight_eq, Function.comp_def, weight_renameOrdinal]
    · exact weight_renameOrdinal f _
  · rfl

end Field

section Reads

variable {next supply : Nat} {m : Message} {f : Field} {rest : List (Message × Field)} {v : Value}

theorem readFields_cons_of_none (h : m.getAs f ⟨supply⟩ = none) :
    (readFields next ((m, f) :: rest)).run supply =
      (readFields next rest).run (supply + (m.isVacant f).toNat) := by
  have hget : (m.get f).run supply = (none, supply + (m.isVacant f).toNat) := congrArg (·, _) h
  rw [readFields, StateT.run_bind, hget]
  rfl

/-- A field that has a value draws an identity for an empty collection, and one for a collection of
names, where it makes such. -/
theorem readFields_cons_of_some (h : m.getAs f ⟨supply⟩ = some v) :
    let drawn := supply + (m.isVacant f).toNat
    let more := (readFields next rest).run (drawn + (f.renames v).toNat)
    (readFields next ((m, f) :: rest)).run supply =
      (⟨next, f.nameOrdinals ⟨drawn⟩ v, some f⟩ :: more.1, more.2) := by
  have hget : (m.get f).run supply = (some v, supply + (m.isVacant f).toNat) := congrArg (·, _) h
  rw [readFields, StateT.run_bind, hget]
  rfl

end Reads

theorem readFields_step (next : Nat) (reads : List (Message × Field)) (supply : Nat) :
    ∀ p ∈ ((readFields next reads).run supply).1, p.step = next := by
  induction reads generalizing supply with
  | nil => exact List.forall_mem_nil _
  | cons read rest ih =>
    obtain ⟨m, f⟩ := read
    cases hv : m.getAs f ⟨supply⟩ with
    | none =>
      rw [readFields_cons_of_none hv]
      exact ih _
    | some v =>
      rw [readFields_cons_of_some hv]
      exact List.forall_mem_cons.2 ⟨rfl, ih _⟩

theorem sum_weight_readFields (next : Nat) (reads : List (Message × Field)) (supply : Nat) :
    total (((readFields next reads).run supply).1.map fun p => p.value.weight) ≤
      total (reads.map fun r => r.1.readWeight r.2) := by
  induction reads generalizing supply with
  | nil => exact Nat.le_refl 0
  | cons read rest ih =>
    obtain ⟨m, f⟩ := read
    cases hv : m.getAs f ⟨supply⟩ with
    | none =>
      rw [readFields_cons_of_none hv]
      have := ih (supply + (m.isVacant f).toNat)
      simp only [List.map_cons, total_cons]
      omega
    | some v =>
      rw [readFields_cons_of_some hv]
      have := ih (supply + (m.isVacant f).toNat + (f.renames v).toNat)
      have := MessageOf.weight_getAs_le hv
      simp only [List.map_cons, total_cons, Field.weight_nameOrdinals]
      omega

end RecordPath
