import Std.Data.String.ToInt
import RecordPath.Proofs.Record.Conformance

namespace RecordPath

namespace MapKey

variable {k l : MapKey}

instance : Std.OrientedCmp compare where
  eq_swap {a b} := by
    cases a <;> cases b <;> exact Std.OrientedOrd.eq_swap

instance : Std.TransCmp compare where
  isLE_trans {a b c} hab hbc := by
    -- keys of one kind compare by their values, all others by their ranks
    cases a <;> cases b <;> cases c <;> first | exact Std.TransOrd.isLE_trans hab hbc | trivial

instance : Std.LawfulEqCmp compare where
  compare_self {a} := by cases a <;> exact Std.ReflOrd.compare_self
  eq_of_compare {a b} h := by
    cases a <;> cases b <;> try cases h
    case bool.bool => exact congrArg bool (Std.LawfulEqOrd.eq_of_compare h)
    case int.int => exact congrArg int (Int64.toInt_inj.1 (Std.LawfulEqOrd.eq_of_compare h))
    case uint.uint => exact congrArg uint (UInt64.toNat_inj.1 (Std.LawfulEqOrd.eq_of_compare h))
    case string.string => exact congrArg string (Std.LawfulEqOrd.eq_of_compare h)

theorem ne_of_compare_lt (h : k.compare l = .lt) : k ≠ l := by
  rintro rfl
  have heq : k.compare k = .eq := Std.ReflCmp.compare_self
  rw [heq] at h
  cases h

/-- Among the keys of one kind no two have the same text. -/
theorem text_injective (hk : k.kind = l.kind) (h : k.text = l.text) : k = l := by
  cases k <;> cases l <;> try cases hk
  case bool.bool a b => cases a <;> cases b <;> first | rfl | exact absurd h (by decide)
  case int.int a b => exact congrArg int (Int64.toInt_inj.1 (Int.repr_injective h))
  case uint.uint a b => exact congrArg uint (UInt64.toNat_inj.1 (Nat.repr_injective h))
  case string.string => exact congrArg string h

end MapKey

namespace MapOf

variable {α β : Type} {kind : KeyKind}
variable {es sorted rest : List (MapKey × α)} {e : RecordError}

abbrev InOrder (es : List (MapKey × α)) : Prop := es.Pairwise fun d e => d.1.compare e.1 = .lt

theorem lookup_cons (k : MapKey) (d : MapKey × α) (es : List (MapKey × α)) :
    (d :: es).lookup k = if k = d.1 then some d.2 else es.lookup k := by
  rw [List.lookup_cons]
  split <;> simp_all

theorem get?_eq_lookup (m : MapOf α) (key : MapKey) : m.get? key = m.entries.lookup key := by
  unfold get?
  induction m.entries with
  | nil => rfl
  | cons d rest ih =>
    rw [List.find?_cons, lookup_cons]
    by_cases h : key = d.1
    · simp [h]
    · rw [if_neg h, decide_eq_false (Ne.symm h)]
      exact ih

theorem lookup_map (g : α → β) (es : List (MapKey × α)) (key : MapKey) :
    (es.map fun e => (e.1, g e.2)).lookup key = (es.lookup key).map g := by
  induction es with
  | nil => rfl
  | cons d rest ih =>
    rw [List.map_cons, lookup_cons, lookup_cons, ih]
    split <;> rfl

theorem InOrder.nodup (h : InOrder es) : (es.map (·.1)).Nodup :=
  List.pairwise_map.2 (h.imp MapKey.ne_of_compare_lt)

theorem insert_cases (key : MapKey) (value : α) (d : MapKey × α) (rest : List (MapKey × α)) :
    (key.compare d.1 = .lt ∧ insert key value (d :: rest) = (key, value) :: d :: rest) ∨
      (key = d.1 ∧ insert key value (d :: rest) = (key, value) :: rest) ∨
      (d.1.compare key = .lt ∧ insert key value (d :: rest) = d :: insert key value rest) := by
  rw [insert]
  cases hc : key.compare d.1 with
  | lt => exact .inl ⟨rfl, rfl⟩
  | eq => exact .inr (.inl ⟨Std.LawfulEqCmp.eq_of_compare hc, rfl⟩)
  | gt => exact .inr (.inr ⟨Std.OrientedCmp.lt_of_gt hc, rfl⟩)

theorem lookup_insert (key k : MapKey) (value : α) (es : List (MapKey × α)) :
    (insert key value es).lookup k = if k = key then some value else es.lookup k := by
  induction es with
  | nil => rw [insert, lookup_cons]
  | cons d rest ih =>
    obtain ⟨-, hi⟩ | ⟨rfl, hi⟩ | ⟨hlt, hi⟩ := insert_cases key value d rest
    · rw [hi, lookup_cons]
    · rw [hi, lookup_cons, lookup_cons]
      split <;> rfl
    · have hne := MapKey.ne_of_compare_lt hlt
      rw [hi, lookup_cons, lookup_cons, ih]
      split_ifs <;> simp_all

theorem InOrder.insert (h : InOrder es) (key : MapKey) (value : α) :
    InOrder (MapOf.insert key value es) := by
  induction es with
  | nil => exact List.pairwise_singleton ..
  | cons d rest ih =>
    obtain ⟨hd, hrest⟩ := List.pairwise_cons.1 h
    obtain ⟨hlt, hi⟩ | ⟨rfl, hi⟩ | ⟨hlt, hi⟩ := insert_cases key value d rest
    · rw [hi]
      refine List.pairwise_cons.2 ⟨List.forall_mem_cons.2 ⟨hlt, fun e he => ?_⟩, h⟩
      exact Std.TransCmp.lt_trans hlt (hd e he)
    · rw [hi]
      exact List.pairwise_cons.2 ⟨hd, hrest⟩
    · rw [hi]
      refine List.pairwise_cons.2 ⟨fun e he => ?_, ih hrest⟩
      rcases insert_values e he with rfl | he
      · exact hlt
      · exact hd e he

/-- Entries with keys of the kind are collected in order, and what is collected last for a key is
what is found for it. -/
theorem exists_collect (h : ∀ d ∈ rest, d.1.kind = kind) (hs : InOrder sorted) :
    ∃ es, collect kind sorted rest = .ok es ∧ InOrder es ∧
      ∀ k, es.lookup k = (rest.reverse.lookup k).or (sorted.lookup k) := by
  induction rest generalizing sorted with
  | nil => exact ⟨sorted, rfl, hs, fun k => rfl⟩
  | cons d rest ih =>
    obtain ⟨key, value⟩ := d
    obtain ⟨hkey, hrest⟩ := List.forall_mem_cons.1 h
    obtain ⟨es, hes, horder, hlookup⟩ := ih hrest (hs.insert key value)
    refine ⟨es, (if_pos hkey).trans hes, horder, fun k => ?_⟩
    rw [hlookup, lookup_insert, List.reverse_cons, List.lookup_append, Option.or_assoc, lookup_cons]
    split <;> rfl

/-- The error that reports the first of the entries whose key is of another kind. -/
def FirstMismatch (kind : KeyKind) (entries : List (MapKey × α)) (e : RecordError) : Prop :=
  ∃ front d back, entries = front ++ d :: back ∧ (∀ c ∈ front, c.1.kind = kind) ∧
    d.1.kind ≠ kind ∧ e = .kindMismatch d.1.text (kind.name ++ " map key") d.1.kind.name

theorem firstMismatch_cons_of_ne {d : MapKey × α} (hd : d.1.kind ≠ kind) :
    FirstMismatch kind (d :: rest) e ↔
      e = .kindMismatch d.1.text (kind.name ++ " map key") d.1.kind.name := by
  constructor
  · rintro ⟨_ | ⟨c, front⟩, d', back, heq, hfront, -, he⟩
    · cases heq
      exact he
    · cases heq
      exact absurd (hfront d List.mem_cons_self) hd
  · exact fun he => ⟨[], d, rest, rfl, by simp, hd, he⟩

theorem firstMismatch_cons_of_eq {d : MapKey × α} (hd : d.1.kind = kind) :
    FirstMismatch kind (d :: rest) e ↔ FirstMismatch kind rest e := by
  constructor
  · rintro ⟨_ | ⟨c, front⟩, d', back, heq, hfront, hne, he⟩
    · cases heq
      exact absurd hd hne
    · cases heq
      exact ⟨front, d', back, rfl, fun c hc => hfront c (List.mem_cons_of_mem _ hc), hne, he⟩
  · rintro ⟨front, d', back, rfl, hfront, hne, he⟩
    exact ⟨d :: front, d', back, rfl, List.forall_mem_cons.2 ⟨hd, hfront⟩, hne, he⟩

theorem exists_firstMismatch {d : MapKey × α} (hd : d ∈ rest) (hne : d.1.kind ≠ kind) :
    ∃ e, FirstMismatch kind rest e := by
  induction rest with
  | nil => cases hd
  | cons c rest ih =>
    by_cases hc : c.1.kind = kind
    · rcases List.mem_cons.1 hd with rfl | hd
      · exact absurd hc hne
      · obtain ⟨e, he⟩ := ih hd
        exact ⟨e, (firstMismatch_cons_of_eq hc).2 he⟩
    · exact ⟨_, (firstMismatch_cons_of_ne hc).2 rfl⟩

theorem collect_eq_error_iff :
    collect kind sorted rest = .error e ↔ FirstMismatch kind rest e := by
  induction rest generalizing sorted with
  | nil =>
    constructor
    · rintro ⟨⟩
    · rintro ⟨front, d, back, heq, -⟩
      cases front <;> cases heq
  | cons d rest ih =>
    obtain ⟨key, value⟩ := d
    unfold collect
    split
    · rw [ih, firstMismatch_cons_of_eq ‹_›]
    · rw [firstMismatch_cons_of_ne ‹_›, Except.error.injEq, eq_comm]

end MapOf

end RecordPath
