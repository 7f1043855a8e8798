import Mathlib.Data.List.Forall2
import RecordPath.Proofs.Decimal.Unpacked
import RecordPath.Proofs.Record.Lasting
import RecordPath.Proofs.Search.Session

namespace RecordPath

section Lists

variable {α β γ : Type} {R S : α → β → Prop} {xs : List α} {ys : List β} {zs : List γ}

theorem forall₂_of_mem (h : List.Forall₂ R xs ys)
    (hS : ∀ x ∈ xs, ∀ y ∈ ys, R x y → S x y) : List.Forall₂ S xs ys := by
  induction h with
  | nil => exact .nil
  | cons h _ ih =>
    refine .cons (hS _ List.mem_cons_self _ List.mem_cons_self h) (ih fun x hx y hy => ?_)
    exact hS x (List.mem_cons_of_mem _ hx) y (List.mem_cons_of_mem _ hy)

theorem forall₂_trans_of_mem {Q : β → γ → Prop} {T : α → γ → Prop} (h : List.Forall₂ R xs ys)
    (h' : List.Forall₂ Q ys zs) (hT : ∀ x ∈ xs, ∀ y z, R x y → Q y z → T x z) :
    List.Forall₂ T xs zs := by
  induction h generalizing zs with
  | nil =>
    cases h'
    exact .nil
  | cons h _ ih =>
    cases h' with
    | cons h' hs' =>
      refine .cons (hT _ List.mem_cons_self _ _ h h') (ih hs' fun x hx => ?_)
      exact hT x (List.mem_cons_of_mem _ hx)

end Lists

namespace Value

variable {u v w : Value}

theorem sizeOf_lt_of_mem_parts (h : u ∈ v.parts) : sizeOf u < sizeOf v := by
  cases v with
  | message m =>
    obtain ⟨ident, type, slots⟩ := m
    obtain ⟨o, ho, rfl⟩ := List.mem_filterMap.1 h
    have := List.sizeOf_lt_of_mem ho
    simp at this ⊢
    omega
  | list l =>
    obtain ⟨ident, items⟩ := l
    have hlt : sizeOf u < sizeOf items := List.sizeOf_lt_of_mem h
    simp
    omega
  | map m =>
    obtain ⟨ident, kind, entries⟩ := m
    obtain ⟨⟨key, u⟩, he, rfl⟩ := List.mem_map.1 h
    have := List.sizeOf_lt_of_mem he
    simp at this ⊢
    omega
  | _ => cases h

/-- What holds of a value whenever it holds of its parts holds of every value. -/
theorem induction_parts {P : Value → Prop} (h : ∀ v, (∀ u ∈ v.parts, P u) → P v) (v : Value) :
    P v :=
  h v fun u _ => induction_parts h u
termination_by sizeOf v
decreasing_by exact sizeOf_lt_of_mem_parts ‹_›

/-- Equality by content: two values of one kind that are the same or made of values alike. Doubles
are compared as numbers, and messages are of one type if their types have one name. -/
inductive Alike : Value → Value → Prop
  | bool (b : Bool) : Alike (.bool b) (.bool b)
  | int (n : Int64) : Alike (.int n) (.int n)
  | uint (n : UInt64) : Alike (.uint n) (.uint n)
  | float {x y : Float} (h : (x == y) = true) : Alike (.float x) (.float y)
  | string (s : String) : Alike (.string s) (.string s)
  | bytes (bs : List UInt8) : Alike (.bytes bs) (.bytes bs)
  | list {l k : ListValue} (hs : List.Forall₂ Alike l.items k.items) : Alike (.list l) (.list k)
  | map {m n : MapValue} (hk : m.keyKind = n.keyKind)
      (hkeys : m.entries.map (·.1) = n.entries.map (·.1))
      (hs : List.Forall₂ Alike (m.entries.map (·.2)) (n.entries.map (·.2))) :
      Alike (.map m) (.map n)
  | message {m n : Message} (ht : m.type.name = n.type.name)
      (hs : List.Forall₂ (Option.Rel Alike) m.slots n.slots) : Alike (.message m) (.message n)

def Numeric (v : Value) : Prop := v.Throughout fun u => ∀ x, u = .float x → x.isNaN = false

theorem Numeric.part (h : v.Numeric) (hu : u ∈ v.parts) : u.Numeric := Throughout.part h hu

theorem mem_parts_of_mem_slots {m : Message} (h : some v ∈ m.slots) : v ∈ (message m).parts :=
  List.mem_filterMap.2 ⟨some v, h, rfl⟩

theorem forall₂_slots_of_mem {m n : Message} {R S : Value → Value → Prop}
    (h : List.Forall₂ (Option.Rel R) m.slots n.slots)
    (hS : ∀ x ∈ (message m).parts, ∀ y ∈ (message n).parts, R x y → S x y) :
    List.Forall₂ (Option.Rel S) m.slots n.slots := by
  refine forall₂_of_mem h fun x hx y hy hxy => ?_
  cases hxy with
  | none => exact .none
  | some hxy => exact .some (hS _ (mem_parts_of_mem_slots hx) _ (mem_parts_of_mem_slots hy) hxy)

theorem Alike.refl (h : v.Numeric) : v.Alike v := by
  induction v using induction_parts with
  | h v ih =>
    cases v with
    | bool b => exact .bool b
    | int n => exact .int n
    | uint n => exact .uint n
    | float x => exact .float (Decimal.beq_self (h.self x rfl))
    | string s => exact .string s
    | bytes bs => exact .bytes bs
    | list l => exact .list (List.forall₂_same.2 fun u hu => ih u hu (h.part hu))
    | map m => exact .map rfl rfl (List.forall₂_same.2 fun u hu => ih u hu (h.part hu))
    | message m =>
      refine .message rfl (List.forall₂_same.2 fun o ho => ?_)
      cases o with
      | none => exact .none
      | some u =>
        have hu := mem_parts_of_mem_slots ho
        exact .some (ih u hu (h.part hu))

theorem Alike.symm (h : u.Alike v) : v.Alike u := by
  induction u using induction_parts generalizing v with
  | h u ih =>
    cases h with
    | bool b => exact .bool b
    | int n => exact .int n
    | uint n => exact .uint n
    | float h => exact .float (Decimal.beq_symm h)
    | string s => exact .string s
    | bytes bs => exact .bytes bs
    | list hs =>
      exact .list (List.Forall₂.flip (forall₂_of_mem hs fun x hx y _ hxy => ih x hx hxy))
    | map hk hkeys hs =>
      refine .map hk.symm hkeys.symm ?_
      exact List.Forall₂.flip (forall₂_of_mem hs fun x hx y _ hxy => ih x hx hxy)
    | message ht hs =>
      refine .message ht.symm (List.Forall₂.flip (forall₂_of_mem hs fun x hx y _ hxy => ?_))
      cases hxy with
      | none => exact .none
      | some hxy => exact .some (ih _ (mem_parts_of_mem_slots hx) hxy)

theorem Alike.trans (h : u.Alike v) (h' : v.Alike w) : u.Alike w := by
  induction u using induction_parts generalizing v w with
  | h u ih =>
    cases h with
    | bool | int | uint | string | bytes => exact h'
    | float h =>
      cases h' with
      | float h' => exact .float (Decimal.beq_trans h h')
    | list hs =>
      cases h' with
      | list hs' => exact .list (forall₂_trans_of_mem hs hs' fun x hx y z hxy => ih x hx hxy)
    | map hk hkeys hs =>
      cases h' with
      | map hk' hkeys' hs' =>
        refine .map (hk.trans hk') (hkeys.trans hkeys') ?_
        exact forall₂_trans_of_mem hs hs' fun x hx y z hxy => ih x hx hxy
    | message ht hs =>
      cases h' with
      | message ht' hs' =>
        refine .message (ht.trans ht') (forall₂_trans_of_mem hs hs' fun x hx y z hxy hyz => ?_)
        cases hxy with
        | none => exact hyz
        | some hxy =>
          cases hyz with
          | some hyz => exact .some (ih _ (mem_parts_of_mem_slots hx) hxy hyz)

theorem sameItems_iff {xs ys : List Value} :
    sameItems xs ys = true ↔ List.Forall₂ (fun x y => (x == y) = true) xs ys := by
  induction xs generalizing ys with
  | nil => cases ys <;> simp [sameItems]
  | cons x xs ih =>
    cases ys with
    | nil => simp [sameItems]
    | cons y ys =>
      rw [sameItems, Bool.and_eq_true, List.forall₂_cons, ih]
      rfl

theorem sameSlots_iff {xs ys : List (Option Value)} :
    sameSlots xs ys = true ↔ List.Forall₂ (Option.Rel fun x y => (x == y) = true) xs ys := by
  induction xs generalizing ys with
  | nil => cases ys <;> simp [sameSlots]
  | cons x xs ih =>
    cases ys with
    | nil => cases x <;> simp [sameSlots]
    | cons y ys =>
      cases x <;> cases y <;> simp [sameSlots, List.forall₂_cons, ih, BEq.beq]

theorem sameEntries_iff {xs ys : List (MapKey × Value)} :
    sameEntries xs ys = true ↔ xs.map (·.1) = ys.map (·.1) ∧
      List.Forall₂ (fun x y => (x == y) = true) (xs.map (·.2)) (ys.map (·.2)) := by
  induction xs generalizing ys with
  | nil => cases ys <;> simp [sameEntries]
  | cons x xs ih =>
    cases ys with
    | nil => simp [sameEntries]
    | cons y ys =>
      obtain ⟨k, x⟩ := x
      obtain ⟨l, y⟩ := y
      rw [sameEntries, Bool.and_eq_true, Bool.and_eq_true, ih, beq_iff_eq]
      simp only [List.map_cons, List.cons.injEq, List.forall₂_cons]
      exact ⟨fun ⟨⟨hk, h⟩, hkeys, hs⟩ => ⟨⟨hk, hkeys⟩, h, hs⟩,
        fun ⟨⟨hk, hkeys⟩, h, hs⟩ => ⟨⟨hk, h⟩, hkeys, hs⟩⟩

theorem beq_list_iff {l k : ListValue} : (list l == list k) = true ↔
    l.ident = k.ident ∨ List.Forall₂ (fun x y => (x == y) = true) l.items k.items := by
  change (l.ident == k.ident || sameItems l.items k.items) = true ↔ _
  rw [Bool.or_eq_true, beq_iff_eq, sameItems_iff]

theorem beq_map_iff {m n : MapValue} : (map m == map n) = true ↔ m.ident = n.ident ∨
    m.keyKind = n.keyKind ∧ m.entries.map (·.1) = n.entries.map (·.1) ∧
      List.Forall₂ (fun x y => (x == y) = true) (m.entries.map (·.2)) (n.entries.map (·.2)) := by
  change (m.ident == n.ident || (m.keyKind == n.keyKind && sameEntries m.entries n.entries)) =
    true ↔ _
  rw [Bool.or_eq_true, Bool.and_eq_true, beq_iff_eq, beq_iff_eq, sameEntries_iff]

theorem beq_message_iff {m n : Message} : (message m == message n) = true ↔ m.ident = n.ident ∨
    m.type.name = n.type.name ∧
      List.Forall₂ (Option.Rel fun x y => (x == y) = true) m.slots n.slots := by
  change (m.ident == n.ident || (m.type.name == n.type.name && sameSlots m.slots n.slots)) =
    true ↔ _
  rw [Bool.or_eq_true, Bool.and_eq_true, beq_iff_eq, beq_iff_eq, sameSlots_iff]

theorem Alike.beq (h : u.Alike v) : (u == v) = true := by
  induction u using induction_parts generalizing v with
  | h u ih =>
    cases h with
    | bool b => exact beq_self_eq_true b
    | int n => exact beq_self_eq_true n
    | uint n => exact beq_self_eq_true n
    | float h => exact h
    | string s => exact beq_self_eq_true s
    | bytes bs => exact beq_self_eq_true bs
    | list hs =>
      exact beq_list_iff.2 (.inr (forall₂_of_mem hs fun x hx y _ hxy => ih x hx hxy))
    | map hk hkeys hs =>
      refine beq_map_iff.2 (.inr ⟨hk, hkeys, ?_⟩)
      exact forall₂_of_mem hs fun x hx y _ hxy => ih x hx hxy
    | message ht hs =>
      exact beq_message_iff.2 (.inr ⟨ht, forall₂_slots_of_mem hs fun x hx y _ hxy => ih x hx hxy⟩)

theorem alike_of_beq_scalar (hu : u.ident? = none) (hn : u.Numeric) (h : (u == v) = true) :
    u.Alike v := by
  obtain rfl | ⟨x, y, rfl, rfl, hxy⟩ := eq_of_beq_scalar hu h
  · exact .refl hn
  · exact .float hxy

end Value

open Value

/-- Values that are equal without a NaN are alike: either by comparison, or because they are one and
the same. -/
theorem Coherent.alike_of_beq {known : Value → Prop} {supply : Nat} {u v : Value}
    (hc : Coherent known supply) (hu : known u) (hv : known v) (hn : u.Numeric)
    (h : (u == v) = true) : u.Alike v := by
  induction u using induction_parts generalizing v with
  | h u ih =>
    -- what shares an identity is one and the same, so equality need not look any further
    by_cases hi : u.ident? = v.ident? ∧ u.ident? ≠ none
    · rw [← hc.same u v hu hv hi.1 hi.2]
      exact .refl hn
    · have hdiffer {i j : Ident} (hui : u.ident? = some i) (hvj : v.ident? = some j) : i ≠ j := by
        rintro rfl
        exact hi ⟨hui.trans hvj.symm, by simp [hui]⟩
      have hpart {x y : Value} (hx : x ∈ u.parts) (hy : y ∈ v.parts) (hxy : (x == y) = true) :
          x.Alike y := ih x hx (hc.part u hu x hx) (hc.part v hv y hy) (hn.part hx) hxy
      cases u with
      | list l =>
        cases v with
        | list k =>
          have hs := (beq_list_iff.1 h).resolve_left (hdiffer rfl rfl)
          exact .list (forall₂_of_mem hs fun x hx y hy => hpart hx hy)
        | _ => cases h
      | map m =>
        cases v with
        | map n =>
          obtain ⟨hk, hkeys, hs⟩ := (beq_map_iff.1 h).resolve_left (hdiffer rfl rfl)
          exact .map hk hkeys (forall₂_of_mem hs fun x hx y hy => hpart hx hy)
        | _ => cases h
      | message m =>
        cases v with
        | message n =>
          obtain ⟨ht, hs⟩ := (beq_message_iff.1 h).resolve_left (hdiffer rfl rfl)
          exact .message ht (forall₂_slots_of_mem hs fun x hx y hy => hpart hx hy)
        | _ => cases h
      | _ => exact alike_of_beq_scalar rfl hn h

/-- Of what a session has, values without a NaN are equal if and only if they are alike. So equality
of such values is reflexive, symmetric and transitive. -/
theorem Session.Reached.beq_iff_alike {s : Session} {u v w : Value} (h : s.Reached)
    (hu : s.Held u) (hv : s.Held v) (hw : s.Held w) (hun : u.Numeric) (hvn : v.Numeric) :
    ((u == v) = true ↔ u.Alike v) ∧ (u == u) = true ∧ ((u == v) = true → (v == u) = true) ∧
      ((u == v) = true → (v == w) = true → (u == w) = true) := by
  have hc := h.holds_held.workshop.coherent
  have hiff : (u == v) = true ↔ u.Alike v := ⟨hc.alike_of_beq hu hv hun, Alike.beq⟩
  refine ⟨hiff, (Alike.refl hun).beq, fun huv => (hiff.1 huv).symm.beq, fun huv hvw => ?_⟩
  exact ((hiff.1 huv).trans (hc.alike_of_beq hv hw hvn hvw)).beq

namespace Scale

def weights : Field := ⟨"weights", 0, .float, .repeated⟩

def scaleType : MessageType where
  name := "Scale"
  fields := [weights]
  index_eq := by decide
  nodup := by decide

def load (j : Nat) (x : Float) : Value := .list ⟨⟨j⟩, [.float x]⟩

def scale (i j : Nat) (x : Float) : Message := ⟨⟨i⟩, scaleType, [some (load j x)]⟩

/-- Two scales that share their load, and one that has a load of its own. -/
def session : Session where
  workshop := {
    values := [.message (scale 4 1 (-0)), .message (scale 3 0 0), .message (scale 2 0 0),
      load 1 (-0), load 0 0, .float (-0), .float 0]
    builders := [⟨scaleType, [some (load 1 (-0))], none⟩, ⟨scaleType, [some (load 0 0)], none⟩,
      .start scaleType]
    supply := 5 }
  searches := []

theorem session_reached : session.Reached := by
  have h0 := (Session.Reached.opened 0).step (.work (.scalar (.float 0) rfl))
  have h1 := h0.step (.work (.scalar (.float (-0)) rfl))
  have h2 := h1.step (.work (.list [.float 0] (by simp) rfl))
  have h3 := h2.step (.work (.list [.float (-0)] (by simp) rfl))
  have h4 := h3.step (.work (.start scaleType))
  have h5 := h4.step (.work (.set "weights" (.head _) (.tail _ (.head _)) rfl))
  have h6 := h5.step (.work (.build (.head _) rfl))
  have h7 := h6.step (.work (.build (.head _) rfl))
  have h8 := h7.step (.work (.set "weights" (.tail _ (.head _)) (.tail _ (.tail _ (.head _))) rfl))
  exact h8.step (.work (.build (.head _) rfl))

theorem numeric_scale (i j : Nat) {x : Float} (hx : x.isNaN = false) :
    (Value.message (scale i j x)).Numeric := by
  refine throughout_of_parts nofun (List.forall_mem_singleton.2 ?_)
  refine throughout_of_parts nofun (List.forall_mem_singleton.2 ?_)
  refine throughout_of_parts ?_ (List.forall_mem_nil _)
  rintro _ ⟨⟩
  exact hx

end Scale

/-- The scales are equal, whether they share their load or not; a zero has no sign there. -/
theorem Session.Reached.beq_iff_alike_scales :
    Scale.session.Reached ∧ Scale.session.Held (.message (Scale.scale 2 0 0)) ∧
      Scale.session.Held (.message (Scale.scale 3 0 0)) ∧
      Scale.session.Held (.message (Scale.scale 4 1 (-0))) ∧
      (Value.message (Scale.scale 2 0 0)).Numeric ∧ (Value.message (Scale.scale 3 0 0)).Numeric ∧
      (Value.message (Scale.scale 2 0 0)).Alike (.message (Scale.scale 3 0 0)) ∧
      (Value.message (Scale.scale 2 0 0) == .message (Scale.scale 4 1 (-0))) = true := by
  have hu : Scale.session.Held (.message (Scale.scale 2 0 0)) :=
    .inr (.value (.tail _ (.tail _ (.head _))))
  have hv : Scale.session.Held (.message (Scale.scale 3 0 0)) := .inr (.value (.tail _ (.head _)))
  have hw : Scale.session.Held (.message (Scale.scale 4 1 (-0))) := .inr (.value (.head _))
  have hun := Scale.numeric_scale 2 0 (x := 0) (by decide)
  have hvn := Scale.numeric_scale 3 0 (x := 0) (by decide)
  obtain ⟨halike, -, -, htrans⟩ := beq_iff_alike Scale.session_reached hu hv hw hun hvn
  exact ⟨Scale.session_reached, hu, hv, hw, hun, hvn, halike.1 rfl, htrans rfl rfl⟩

end RecordPath
