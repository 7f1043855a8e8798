import Mathlib.Data.List.Induction
import RecordPath.Proofs.Record.Conformance
import RecordPath.Proofs.Search.FreshIdentity

namespace RecordPath

section Accepting

variable {f : Field} {v : Value} {e : RecordError}

/-- The identity that a field could give a list matters for that list alone. -/
theorem Field.map_eraseFresh_accept (f : Field) (v : Value) {n i j : Nat} (hi : n ≤ i)
    (hj : n ≤ j) : (f.accept ⟨i⟩ v).map (Value.eraseFresh n) =
      (f.accept ⟨j⟩ v).map (Value.eraseFresh n) := by
  unfold accept
  split
  · rfl
  · split
    · rename_i l
      cases l.items.mapM f.acceptElement with
      | error e => rfl
      | ok items =>
        change Except.ok (Value.eraseFresh n (if _ then _ else _)) =
          Except.ok (Value.eraseFresh n (if _ then _ else _))
        split
        · rfl
        · rw [Value.eraseFresh_of_fresh_list hi hj]
    · rfl
  · rfl

theorem Field.accept_eq_error_iff (i j : Ident) :
    f.accept i v = .error e ↔ f.accept j v = .error e := by
  have hmap (i : Ident) : f.accept i v = .error e ↔
      (f.accept i v).map (Value.eraseFresh 0) = .error e := by
    cases f.accept i v <;> simp [Except.map]
  rw [hmap i, hmap j]
  exact Eq.congr_left (f.map_eraseFresh_accept v (Nat.zero_le _) (Nat.zero_le _))

end Accepting

inductive MessageType.Refuses (t : MessageType) : String × Value → RecordError → Prop
  | unknown {name : String} {v : Value} (h : ∀ f ∈ t.fields, f.name ≠ name) :
      Refuses t (name, v) (.unknownField t.name name)
  | rejected {f : Field} {v : Value} {e : RecordError} (hf : f ∈ t.fields) (fresh : Ident)
      (h : f.accept fresh v = .error e) : Refuses t (f.name, v) e

def MessageType.RefusesFirst (t : MessageType) (calls : List (String × Value)) (e : RecordError) :
    Prop :=
  ∃ front c back, calls = front ++ c :: back ∧ (∀ d ∈ front, ∀ e', ¬ t.Refuses d e') ∧
    t.Refuses c e

/-- The value that the last call for a field gives, and the number of calls before that one. -/
def lastSet? (name : String) (calls : List (String × Value)) : Option (Value × Nat) :=
  ((calls.zipIdx.filter fun c => c.1.1 = name).getLast?).map fun c => (c.1.2, c.2)

section LastSet

variable {name : String} {calls : List (String × Value)} {c : String × Value}

theorem lastSet?_concat (name : String) (calls : List (String × Value)) (c : String × Value) :
    lastSet? name (calls ++ [c]) =
      if c.1 = name then some (c.2, calls.length) else lastSet? name calls := by
  rw [lastSet?, List.zipIdx_append, List.filter_append]
  split
  · simp_all
  · simp_all [lastSet?]

theorem lt_of_lastSet? {v : Value} {k : Nat} (h : lastSet? name calls = some (v, k)) :
    k < calls.length := by
  induction calls using List.reverseRecOn with
  | nil => cases h
  | append_singleton calls c ih =>
    rw [List.length_append, List.length_singleton]
    rw [lastSet?_concat] at h
    split at h
    · cases h
      exact Nat.lt_succ_self _
    · exact Nat.lt_succ_of_lt (ih h)

theorem lastSet?_eq_none : lastSet? name calls = none ↔ ∀ c ∈ calls, c.1 ≠ name := by
  induction calls using List.reverseRecOn with
  | nil => simp [lastSet?]
  | append_singleton calls c ih =>
    rw [lastSet?_concat, List.forall_mem_append, List.forall_mem_singleton]
    by_cases hc : c.1 = name
    · simp [hc]
    · rw [if_neg hc, ih]
      exact (and_iff_left hc).symm

/-- Which value comes last for a field does not depend on the order of two calls for different
fields. -/
theorem map_lastSet?_exchange {d : String × Value} (h : c.1 ≠ d.1)
    (front back : List (String × Value)) :
    (lastSet? name (front ++ c :: d :: back)).map (·.1) =
      (lastSet? name (front ++ d :: c :: back)).map (·.1) := by
  induction back using List.reverseRecOn with
  | nil =>
    rw [List.append_cons front c, List.append_cons front d, lastSet?_concat, lastSet?_concat,
      lastSet?_concat, lastSet?_concat]
    split_ifs <;> simp_all
  | append_singleton back e ih =>
    simp only [← List.cons_append, ← List.append_assoc, lastSet?_concat]
    split_ifs
    · rfl
    · exact ih

end LastSet

def MessageType.remade (t : MessageType) (calls : List (String × Value)) : Nat :=
  calls.countP fun c => (t.field? c.1).any (·.remakes c.2)

theorem MessageType.remade_concat (t : MessageType) (calls : List (String × Value))
    (c : String × Value) :
    t.remade (calls ++ [c]) = t.remade calls + ((t.field? c.1).any (·.remakes c.2)).toNat := by
  rw [remade, List.countP_append, List.countP_singleton]
  cases (t.field? c.1).any (·.remakes c.2) <;> rfl

namespace Builder

variable {b : Builder} {fresh : Ident} {name : String} {v : Value} {e : RecordError} {n : Nat}

theorem put_of_fault (h : b.fault = some e) : b.put fresh name v = b := by
  unfold put
  rw [h]

theorem run_setAll_of_fault (h : b.fault = some e) (calls : List (String × Value)) :
    ((b.setAll calls).run n).1 = b := by
  induction calls generalizing n with
  | nil => rfl
  | cons c calls ih => rw [run_setAll_cons, put_of_fault h, ih]

theorem run_setAll_append (b : Builder) (front back : List (String × Value)) (n : Nat) :
    (b.setAll (front ++ back)).run n =
      (((b.setAll front).run n).1.setAll back).run ((b.setAll front).run n).2 := by
  rw [setAll, List.foldlM_append]
  rfl

theorem put_of_refuses (hb : b.fault = none) (h : b.type.Refuses (name, v) e) :
    b.put fresh name v = { b with fault := some e } := by
  unfold put
  rw [hb]
  cases h with
  | unknown h =>
    have hnone : b.type.field? name = none := by simpa [MessageType.field?] using h
    rw [hnone]
  | @rejected f _ _ hf i h =>
    rw [MessageType.field?_of_mem hf]
    simp only [(f.accept_eq_error_iff i fresh).1 h]

theorem exists_put_of_not_refuses (hb : b.fault = none) (h : ∀ e, ¬ b.type.Refuses (name, v) e)
    (fresh : Ident) : ∃ f ∈ b.type.fields, f.name = name ∧ ∃ w, f.accept fresh v = .ok w ∧
      b.put fresh name v = { b with slots := b.slots.set f.index (some w) } := by
  cases hf : b.type.field? name with
  | none =>
    have hunknown : ∀ f ∈ b.type.fields, f.name ≠ name := by simpa [MessageType.field?] using hf
    exact absurd (.unknown hunknown) (h _)
  | some f =>
    obtain ⟨hmem, rfl⟩ := MessageType.mem_of_field? hf
    cases hw : f.accept fresh v with
    | error e => exact absurd (.rejected hmem fresh hw) (h e)
    | ok w => exact ⟨f, hmem, rfl, w, hw, put_of_accept hb hf hw⟩

end Builder

/-- Every slot holds what its field makes of the value that was last set, or nothing if there was
none. A list that a call makes has the next identity after those that the calls before it took. -/
structure KeepsLast (t : MessageType) (calls : List (String × Value)) (n : Nat)
    (slots : List (Option Value)) : Prop where
  length : slots.length = t.fields.length
  last : ∀ f ∈ t.fields, ∀ u k, lastSet? f.name calls = some (u, k) →
    ∃ v, f.accept ⟨n + t.remade (calls.take k)⟩ u = .ok v ∧ slots[f.index]? = some (some v)
  unset : ∀ f ∈ t.fields, lastSet? f.name calls = none → slots[f.index]? = some none

namespace KeepsLast

variable {t : MessageType} {calls : List (String × Value)} {n : Nat} {slots : List (Option Value)}

theorem start (t : MessageType) (n : Nat) : KeepsLast t [] n (Builder.start t).slots where
  length := List.length_replicate
  last f _ u k h := by cases h
  unset f hf _ := by
    rw [Builder.start, List.getElem?_replicate, if_pos (MessageType.index_lt hf)]

theorem concat (h : KeepsLast t calls n slots) {f : Field} {u v : Value} (hf : f ∈ t.fields)
    (hv : f.accept ⟨n + t.remade calls⟩ u = .ok v) :
    KeepsLast t (calls ++ [(f.name, u)]) n (slots.set f.index (some v)) := by
  have hself : (slots.set f.index (some v))[f.index]? = some (some v) :=
    List.getElem?_set_self (h.length ▸ MessageType.index_lt hf)
  have hother (g : Field) (hg : g ∈ t.fields) (hne : f.name ≠ g.name) :
      (slots.set f.index (some v))[g.index]? = slots[g.index]? :=
    List.getElem?_set_ne fun he => hne (MessageType.index_injective hf hg he ▸ rfl)
  refine ⟨List.length_set.trans h.length, fun g hg u' k hlast => ?_, fun g hg hlast => ?_⟩
  · rw [lastSet?_concat] at hlast
    split at hlast
    · obtain rfl := MessageType.name_injective hf hg ‹_›
      cases hlast
      exact ⟨v, by rwa [List.take_left], hself⟩
    · rw [hother g hg ‹_›, List.take_append_of_le_length (Nat.le_of_lt (lt_of_lastSet? hlast))]
      exact h.last g hg u' k hlast
  · rw [lastSet?_concat] at hlast
    split at hlast
    · cases hlast
    · rw [hother g hg ‹_›]
      exact h.unset g hg hlast

theorem map_eraseFresh_congr {calls' : List (String × Value)} {slots' : List (Option Value)}
    (h : KeepsLast t calls n slots) (h' : KeepsLast t calls' n slots')
    (hlast : ∀ name, (lastSet? name calls).map (·.1) = (lastSet? name calls').map (·.1)) :
    slots.map (Option.map (Value.eraseFresh n)) =
      slots'.map (Option.map (Value.eraseFresh n)) := by
  refine List.ext_getElem? fun i => ?_
  rw [List.getElem?_map, List.getElem?_map]
  rcases Nat.lt_or_ge i t.fields.length with hi | hi
  · have hf : t.fields[i] ∈ t.fields := List.getElem_mem hi
    have hindex : t.fields[i].index = i := t.index_eq i hi
    have hname := hlast t.fields[i].name
    cases hu : lastSet? t.fields[i].name calls with
    | none =>
      rw [hu] at hname
      have hu' := Option.map_eq_none_iff.1 hname.symm
      rw [← hindex, h.unset _ hf hu, h'.unset _ hf hu']
    | some c =>
      obtain ⟨_, k⟩ := c
      rw [hu] at hname
      obtain ⟨⟨u, k'⟩, hu', rfl⟩ := Option.map_eq_some_iff.1 hname.symm
      obtain ⟨v, hv, hslot⟩ := h.last _ hf u k hu
      obtain ⟨v', hv', hslot'⟩ := h'.last _ hf u k' hu'
      have heq := t.fields[i].map_eraseFresh_accept u (Nat.le_add_right n (t.remade (calls.take k)))
        (Nat.le_add_right n (t.remade (calls'.take k')))
      rw [hv, hv'] at heq
      rw [← hindex, hslot, hslot']
      exact congrArg (fun w => some (some w)) (Except.ok.inj heq)
  · rw [List.getElem?_eq_none (h.length ▸ hi), List.getElem?_eq_none (h'.length ▸ hi)]

theorem stored? (h : KeepsLast t calls n slots) (i : Ident) {f : Field} (hf : f ∈ t.fields) :
    (∀ u k, lastSet? f.name calls = some (u, k) →
      ∃ v, f.accept ⟨n + t.remade (calls.take k)⟩ u = .ok v ∧
        (⟨i, t, slots⟩ : Message).stored? f = some v) ∧
    ((∀ c ∈ calls, c.1 ≠ f.name) → (⟨i, t, slots⟩ : Message).stored? f = none) := by
  rw [MessageOf.stored?_of_mem (m := ⟨i, t, slots⟩) hf]
  constructor
  · intro u k hlast
    obtain ⟨v, hv, hslot⟩ := h.last f hf u k hlast
    exact ⟨v, hv, by rw [hslot]; rfl⟩
  · intro hnone
    rw [h.unset f hf (lastSet?_eq_none.2 hnone)]
    rfl

end KeepsLast

/-- The message with one and the same identity in place of any that its fields have given to a list
since `supply`. -/
def MessageOf.eraseFresh (supply : Nat) (m : Message) : Message :=
  { m with slots := m.slots.map (Option.map (Value.eraseFresh supply)) }

namespace MessageType

variable {t : MessageType} {calls front back : List (String × Value)} {c : String × Value}
variable {e : RecordError} {n : Nat}

def make (t : MessageType) (calls : List (String × Value)) :
    Alloc (Except RecordError Message) := do
  let b ← (Builder.start t).setAll calls
  b.build

theorem run_setAll_of_accepted (h : ∀ c ∈ calls, ∀ e, ¬ t.Refuses c e) (n : Nat) :
    ∃ slots, ((Builder.start t).setAll calls).run n = (⟨t, slots, none⟩, n + t.remade calls) ∧
      KeepsLast t calls n slots := by
  -- the call that comes last finds what all calls before it have left
  induction calls using List.reverseRecOn with
  | nil => exact ⟨_, rfl, .start t n⟩
  | append_singleton calls c ih =>
    obtain ⟨hcalls, hc⟩ := List.forall_mem_append.1 h
    obtain ⟨slots, hrun, hkeeps⟩ := ih hcalls
    obtain ⟨f, hf, hname, v, hv, hput⟩ := Builder.exists_put_of_not_refuses
      (b := ⟨t, slots, none⟩) rfl (hc c List.mem_cons_self) ⟨n + t.remade calls⟩
    obtain ⟨name, u⟩ := c
    subst hname
    refine ⟨_, ?_, hkeeps.concat hf hv⟩
    rw [Builder.run_setAll_append, hrun, Builder.run_setAll_cons, hput, remade_concat,
      ← Nat.add_assoc]
    rfl

/-- From the first call on that is refused, nothing changes any more. -/
theorem run_setAll_of_refuses (hfront : ∀ d ∈ front, ∀ e', ¬ t.Refuses d e') (hc : t.Refuses c e)
    (back : List (String × Value)) (n : Nat) :
    (((Builder.start t).setAll (front ++ c :: back)).run n).1 =
      { ((Builder.start t).setAll front).run n |>.1 with fault := some e } := by
  obtain ⟨slots, hrun, -⟩ := run_setAll_of_accepted hfront n
  rw [Builder.run_setAll_append, hrun, Builder.run_setAll_cons,
    Builder.put_of_refuses (b := ⟨t, slots, none⟩) rfl hc, Builder.run_setAll_of_fault rfl]

theorem exists_refusesFirst_or (t : MessageType) (calls : List (String × Value)) :
    (∃ e, t.RefusesFirst calls e) ∨ ∀ c ∈ calls, ∀ e, ¬ t.Refuses c e := by
  induction calls using List.reverseRecOn with
  | nil => exact .inr (by simp)
  | append_singleton calls c ih =>
    rcases ih with ⟨e, front, d, back, rfl, hfront, hd⟩ | hcalls
    · exact .inl ⟨e, front, d, back ++ [c], by simp, hfront, hd⟩
    · by_cases hc : ∃ e, t.Refuses c e
      · obtain ⟨e, he⟩ := hc
        exact .inl ⟨e, calls, c, [], rfl, hcalls, he⟩
      · refine .inr (List.forall_mem_append.2 ⟨hcalls, ?_⟩)
        exact List.forall_mem_singleton.2 fun e he => hc ⟨e, he⟩

theorem refuses_of_refusesFirst (h : t.RefusesFirst calls e) :
    ∃ c ∈ calls, ∃ e, t.Refuses c e := by
  obtain ⟨front, c, back, rfl, -, hc⟩ := h
  exact ⟨c, List.mem_append_right front List.mem_cons_self, e, hc⟩

theorem setAll_append_of_refusesFirst (h : t.RefusesFirst calls e)
    (later : List (String × Value)) (n : Nat) :
    (((Builder.start t).setAll (calls ++ later)).run n).1 =
      (((Builder.start t).setAll calls).run n).1 := by
  obtain ⟨front, c, back, rfl, hfront, hc⟩ := h
  rw [List.append_assoc, List.cons_append, run_setAll_of_refuses hfront hc,
    run_setAll_of_refuses hfront hc]

theorem run_make_of_refusesFirst (h : t.RefusesFirst calls e) (n : Nat) :
    ((t.make calls).run n).1 = .error e := by
  obtain ⟨front, c, back, rfl, hfront, hc⟩ := h
  change ((((Builder.start t).setAll (front ++ c :: back)).run n).1.build.run _).1 = _
  rw [run_setAll_of_refuses hfront hc]
  rfl

theorem exists_run_make_of_accepted (h : ∀ c ∈ calls, ∀ e, ¬ t.Refuses c e) (n : Nat) :
    ∃ slots, ((t.make calls).run n).1 = .ok ⟨⟨n + t.remade calls⟩, t, slots⟩ ∧
      KeepsLast t calls n slots := by
  obtain ⟨slots, hrun, hkeeps⟩ := run_setAll_of_accepted h n
  refine ⟨slots, ?_, hkeeps⟩
  change ((((Builder.start t).setAll calls).run n).1.build.run
    (((Builder.start t).setAll calls).run n).2).1 = _
  rw [hrun]
  rfl

theorem run_make_eq_error_iff :
    ((t.make calls).run n).1 = .error e ↔ t.RefusesFirst calls e := by
  refine ⟨fun h => ?_, fun h => run_make_of_refusesFirst h n⟩
  rcases t.exists_refusesFirst_or calls with ⟨e', he'⟩ | haccepted
  · rw [run_make_of_refusesFirst he' n] at h
    cases h
    exact he'
  · obtain ⟨slots, hok, -⟩ := exists_run_make_of_accepted haccepted n
    rw [hok] at h
    cases h

/-- Two calls in a row that set different fields may change places. -/
theorem toOption_make_exchange {d : String × Value} (h : c.1 ≠ d.1) :
    ((t.make (front ++ c :: d :: back)).run n).1.toOption.map (MessageOf.eraseFresh n) =
      ((t.make (front ++ d :: c :: back)).run n).1.toOption.map (MessageOf.eraseFresh n) := by
  have hperm : (front ++ c :: d :: back).Perm (front ++ d :: c :: back) :=
    (List.Perm.swap d c back).append_left front
  rcases t.exists_refusesFirst_or (front ++ c :: d :: back) with ⟨e, he⟩ | haccepted
  · obtain ⟨b, hb, hrefuses⟩ := refuses_of_refusesFirst he
    rcases t.exists_refusesFirst_or (front ++ d :: c :: back) with ⟨e', he'⟩ | haccepted'
    · rw [run_make_of_refusesFirst he, run_make_of_refusesFirst he']
      rfl
    · obtain ⟨e', he'⟩ := hrefuses
      exact absurd he' (haccepted' b (hperm.mem_iff.1 hb) e')
  · have haccepted' : ∀ b ∈ front ++ d :: c :: back, ∀ e, ¬ t.Refuses b e :=
      fun b hb => haccepted b (hperm.mem_iff.2 hb)
    obtain ⟨slots, hok, hkeeps⟩ := exists_run_make_of_accepted haccepted n
    obtain ⟨slots', hok', hkeeps'⟩ := exists_run_make_of_accepted haccepted' n
    have hslots := hkeeps.map_eraseFresh_congr hkeeps' fun _ => map_lastSet?_exchange h front back
    rw [hok, hok', remade, hperm.countP_eq]
    exact congrArg (fun slots => some (⟨_, t, slots⟩ : Message)) hslots

/-- Making a message fails if and only if some call is refused, with the error of the first such
call, and the calls after that one leave no trace. Otherwise every field stores what it makes of the
value of the last call for it, or nothing if there is none. Two calls in a row for different fields
may change places: up to the identities of lists made anew, the message stays the same. -/
theorem outcome_make (t : MessageType) (calls : List (String × Value)) (n : Nat) :
    (∀ e, ((t.make calls).run n).1 = .error e ↔ t.RefusesFirst calls e) ∧
    ((∃ e, ((t.make calls).run n).1 = .error e) ↔ ∃ c ∈ calls, ∃ e, t.Refuses c e) ∧
    (∀ e, t.RefusesFirst calls e → ∀ later,
      (((Builder.start t).setAll (calls ++ later)).run n).1 =
        (((Builder.start t).setAll calls).run n).1) ∧
    ((∀ c ∈ calls, ∀ e, ¬ t.Refuses c e) → ∃ m, ((t.make calls).run n).1 = .ok m ∧ m.type = t ∧
      ∀ f ∈ t.fields,
        (∀ u k, lastSet? f.name calls = some (u, k) →
          ∃ v, f.accept ⟨n + t.remade (calls.take k)⟩ u = .ok v ∧ m.stored? f = some v) ∧
        ((∀ c ∈ calls, c.1 ≠ f.name) → m.stored? f = none)) ∧
    ∀ front c d back, calls = front ++ c :: d :: back → c.1 ≠ d.1 →
      ((t.make calls).run n).1.toOption.map (MessageOf.eraseFresh n) =
        ((t.make (front ++ d :: c :: back)).run n).1.toOption.map (MessageOf.eraseFresh n) := by
  refine ⟨fun _ => run_make_eq_error_iff, ⟨?_, ?_⟩, fun e he later => ?_, fun haccepted => ?_, ?_⟩
  · rintro ⟨e, he⟩
    exact refuses_of_refusesFirst (run_make_eq_error_iff.1 he)
  · rintro ⟨c, hc, e, he⟩
    rcases t.exists_refusesFirst_or calls with ⟨e', he'⟩ | haccepted
    · exact ⟨e', run_make_of_refusesFirst he' n⟩
    · exact absurd he (haccepted c hc e)
  · exact setAll_append_of_refusesFirst he later n
  · obtain ⟨slots, hok, hkeeps⟩ := exists_run_make_of_accepted haccepted n
    exact ⟨_, hok, rfl, fun f hf => hkeeps.stored? _ hf⟩
  · rintro front c d back rfl hne
    exact toOption_make_exchange hne

/-- A name that the type does not know comes before a value that its field does not take. -/
theorem outcome_make_shelf :
    (∀ c ∈ Shelf.calls, ∀ e, ¬ Shelf.bookType.Refuses c e) ∧
      ((Shelf.bookType.make Shelf.calls).run 2).1 = .ok Shelf.book ∧
      Shelf.bookType.RefusesFirst (Shelf.calls ++ [("pages", .int 5), ("formats", .int 1)])
        (.unknownField "Book" "pages") := by
  refine ⟨fun c hc e he => ?_, rfl, ((outcome_make _ _ 2).1 _).1 rfl⟩
  obtain ⟨e', he'⟩ := (outcome_make Shelf.bookType Shelf.calls 2).2.1.2 ⟨c, hc, e, he⟩
  cases he'

end MessageType

end RecordPath
