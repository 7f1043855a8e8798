import RecordPath.Proofs.Record.Fits
import RecordPath.Proofs.Record.Lasting

namespace RecordPath

section Keys

variable {α : Type}

def MapOf.Keyed (m : MapOf α) : Prop := ∀ e ∈ m.entries, e.1.kind = m.keyKind

theorem MapOf.kind_of_collect {kind : KeyKind} {sorted rest es : List (MapKey × α)}
    (hs : ∀ e ∈ sorted, e.1.kind = kind) (h : collect kind sorted rest = .ok es) :
    ∀ e ∈ es, e.1.kind = kind := by
  induction rest generalizing sorted with
  | nil =>
    cases h
    exact hs
  | cons d rest ih =>
    obtain ⟨key, value⟩ := d
    unfold collect at h
    split at h
    · rename_i hkey
      refine ih (fun e he => ?_) h
      rcases insert_values e he with rfl | he
      · exact hkey
      · exact hs e he
    · cases h

theorem MapValue.keyed_of_create {kind : KeyKind} {entries : List (MapKey × Value)} {m : MapValue}
    {n k : Nat} (h : (create kind entries).run n = (.ok m, k)) : m.Keyed := by
  unfold create at h
  split at h
  · rename_i sorted hcol
    cases h
    exact MapOf.kind_of_collect (by simp) hcol
  · cases h

/-- A value in which the keys of every map, at any depth, are of the kind that it declares. -/
inductive Value.Keyed : Value → Prop
  | intro {v : Value} (own : ∀ m, v = .map m → m.Keyed) (parts : ∀ u ∈ v.parts, Keyed u) : Keyed v

namespace Value

variable {v : Value}

theorem Keyed.own {m : MapValue} (h : (map m).Keyed) : m.Keyed := by
  cases h with
  | intro own parts => exact own m rfl

theorem keyed_of_scalar (h : v.ident? = none) : v.Keyed := by
  constructor
  · rintro m rfl
    cases h
  · intro u hu
    cases v with
    | message | list | map => cases h
    | _ => cases hu

end Value

/-- Maps are made with keys of their kinds only, and what is made of values has only their maps. -/
theorem Value.lasting_keyed : Lasting Keyed where
  scalar _ := keyed_of_scalar
  list i items hp := .intro (v := .list ⟨i, items⟩) (by simp) hp
  map kind entries m n k hm hp := by
    refine .intro ?_ fun u hu => ?_
    · rintro _ ⟨⟩
      exact MapValue.keyed_of_create hm
    · obtain ⟨e, he, rfl⟩ := List.mem_map.1 hu
      exact hp e he
  message i type slots _ hp := by
    refine .intro (by simp) fun u hu => ?_
    obtain ⟨o, ho, rfl⟩ := List.mem_filterMap.1 hu
    exact hp u ho

structure Workshop.Keyed (w : Workshop) : Prop where
  values : ∀ v ∈ w.values, v.Keyed
  slots : ∀ b ∈ w.builders, ∀ v, some v ∈ b.slots → v.Keyed

theorem Workshop.Reached.keyed {w : Workshop} (h : w.Reached) : w.Keyed where
  values v hv := ((h.throughout Value.lasting_keyed).values v hv).self
  slots b hb v hv := ((h.throughout Value.lasting_keyed).slots b hb v hv).self

end Keys

namespace Field

variable {f : Field} {u v : Value} {fresh : Ident}

/-- The form in which a field stores its values. -/
def Conforms (f : Field) (v : Value) : Prop :=
  match f.cardinality with
  | .single => f.kind.Fits v
  | .repeated => ∃ l : ListValue, v = .list l ∧ ∀ u ∈ l.items, f.kind.Fits u
  | .map kind => ∃ m : MapValue, v = .map m ∧ m.keyKind = kind ∧ m.Keyed ∧
      ∀ e ∈ m.entries, f.kind.Fits e.2

/-- What looks like the value that it was changed from was not changed. -/
theorem fits_of_same (h : f.acceptElement u = .ok v) (hs : v.same u = true) : f.kind.Fits u := by
  have hv := fits_acceptElement h
  unfold acceptElement at h
  dsimp only at h
  split at h
  · rename_i w hw
    cases h
    split at hw
    -- values of another kind differ from what they were changed to
    case h_5 | h_7 | h_11 =>
      obtain ⟨n, -, rfl⟩ := Option.map_eq_some_iff.1 hw
      cases hs
    case h_9 =>
      cases hw
      cases hs
    case h_12 =>
      split at hw <;> cases hw
      exact hv
    case h_13 => cases hw
    all_goals
      cases hw
      exact hv
  · cases h

theorem fits_of_sameItems {us vs : List Value} (h : us.mapM f.acceptElement = .ok vs)
    (hs : Value.sameItems vs us = true) : ∀ u ∈ us, f.kind.Fits u := by
  induction us generalizing vs with
  | nil => simp
  | cons u us ih =>
    rw [List.mapM_cons] at h
    obtain ⟨v, hv, h⟩ := of_bind_eq_ok h
    obtain ⟨vs, hvs, h⟩ := of_bind_eq_ok h
    cases h
    rw [Value.sameItems, Bool.and_eq_true] at hs
    exact List.forall_mem_cons.2 ⟨fits_of_same hv hs.1, ih hvs hs.2⟩

theorem exists_of_mapM {α β ε : Type} {g : α → Except ε β} {xs : List α} {ys : List β}
    (h : xs.mapM g = .ok ys) : ∀ x ∈ xs, ∃ y, g x = .ok y := by
  induction xs generalizing ys with
  | nil => simp
  | cons x xs ih =>
    rw [List.mapM_cons] at h
    obtain ⟨y, hy, h⟩ := of_bind_eq_ok h
    obtain ⟨zs, hzs, h⟩ := of_bind_eq_ok h
    exact List.forall_mem_cons.2 ⟨⟨y, hy⟩, ih hzs⟩

theorem conforms_of_accept_single (hc : f.cardinality = .single) (h : f.accept fresh u = .ok v) :
    f.Conforms v := by
  unfold accept at h
  rw [hc] at h
  rw [Conforms, hc]
  exact fits_acceptElement h

theorem conforms_of_accept_repeated (hc : f.cardinality = .repeated)
    (h : f.accept fresh u = .ok v) : f.Conforms v := by
  unfold accept at h
  rw [hc] at h
  rw [Conforms, hc]
  dsimp only at h ⊢
  split at h
  · rename_i l
    obtain ⟨items, hm, h⟩ := of_bind_eq_ok h
    change Except.ok (if Value.sameItems items l.items then .list l else .list ⟨fresh, items⟩) =
      Except.ok v at h
    cases h
    split
    · exact ⟨l, rfl, fits_of_sameItems hm ‹_›⟩
    · refine ⟨⟨fresh, items⟩, rfl, fun i hi => ?_⟩
      obtain ⟨u, -, hu⟩ := exists_of_mem_mapM hm i hi
      exact fits_acceptElement hu
  · cases h

/-- A map is kept as it is, once all its values have been found acceptable. -/
theorem accept_map {kind : KeyKind} (hc : f.cardinality = .map kind)
    (h : f.accept fresh u = .ok v) :
    ∃ m : MapValue, v = .map m ∧ u = .map m ∧ m.keyKind = kind ∧
      ∀ e ∈ m.entries, ∃ t, f.acceptElement e.2 = .ok t := by
  unfold accept at h
  rw [hc] at h
  dsimp only at h
  split at h
  · rename_i m
    split at h
    · obtain ⟨items, hm, h⟩ := of_bind_eq_ok h
      cases h
      exact ⟨m, rfl, rfl, ‹_›, exists_of_mapM hm⟩
    · cases h
  · cases h

end Field

namespace Builder

def setAll (b : Builder) (calls : List (String × Value)) : Alloc Builder :=
  calls.foldlM (fun b c => b.set c.1 c.2) b

theorem run_setAll_cons (b : Builder) (c : String × Value) (rest : List (String × Value))
    (n : Nat) : (b.setAll (c :: rest)).run n =
      ((b.put ⟨n⟩ c.1 c.2).setAll rest).run (n + (b.remakes c.1 c.2).toNat) := rfl

theorem slot_put {b : Builder} {fresh : Ident} {name : String} {u v : Value} {f : Field}
    (hf : f ∈ b.type.fields) (h : (b.put fresh name u).slots[f.index]? = some (some v)) :
    b.slots[f.index]? = some (some v) ∨ (f.name = name ∧ f.accept fresh u = .ok v) := by
  obtain ⟨-, hs | ⟨g, hg, -, t, ht, hs⟩⟩ := b.put_cases fresh name u
  · exact .inl (hs ▸ h)
  · rw [hs] at h
    obtain ⟨hmem, rfl⟩ := MessageType.mem_of_field? hg
    by_cases he : g.index = f.index
    · obtain rfl := MessageType.index_injective hmem hf he
      rw [List.getElem?_set_self'] at h
      obtain ⟨_, -, h⟩ := Option.map_eq_some_iff.1 h
      cases h
      exact .inr ⟨rfl, ht⟩
    · rw [List.getElem?_set_ne he] at h
      exact .inl h

theorem slot_setAll {b b' : Builder} {calls : List (String × Value)} {n k : Nat}
    (h : (b.setAll calls).run n = (b', k)) :
    b'.type = b.type ∧ ∀ f ∈ b.type.fields, ∀ v, b'.slots[f.index]? = some (some v) →
      b.slots[f.index]? = some (some v) ∨
        ∃ u fresh, (f.name, u) ∈ calls ∧ f.accept fresh u = .ok v := by
  induction calls generalizing b n with
  | nil =>
    cases h
    exact ⟨rfl, fun f _ v hv => .inl hv⟩
  | cons c rest ih =>
    rw [run_setAll_cons] at h
    obtain ⟨htype, hslots⟩ := ih h
    have hput := (b.put_cases ⟨n⟩ c.1 c.2).1
    refine ⟨htype.trans hput, fun f hf v hv => ?_⟩
    rcases hslots f (hput ▸ hf) v hv with hv | ⟨u, fresh, hmem, hu⟩
    · refine (slot_put hf hv).imp_right ?_
      rintro ⟨hname, hu⟩
      exact ⟨c.2, ⟨n⟩, hname ▸ List.mem_cons_self, hu⟩
    · exact .inr ⟨u, fresh, List.mem_cons_of_mem c hmem, hu⟩

/-- What a built message stores has the form that belongs to its field. Of a map this holds of its
keys, whereas its values are acceptable but stay as they were given: a map that was given with
values in another form is stored so. -/
theorem conforms_of_build {w : Workshop} (hw : w.Reached) {t : MessageType}
    {calls : List (String × Value)} (hc : ∀ c ∈ calls, c.2 ∈ w.values) {b : Builder} {m : Message}
    {n k l : Nat} (hs : ((start t).setAll calls).run n = (b, k))
    (hb : b.build.run k = (.ok m, l)) :
    m.type = t ∧ ∀ f ∈ t.fields, ∀ v, m.stored? f = some v →
      (f.isMap = false → f.Conforms v) ∧
        ∀ kind, f.cardinality = .map kind → ∃ mv : MapValue, v = .map mv ∧ (f.name, v) ∈ calls ∧
          mv.keyKind = kind ∧ mv.Keyed ∧ (∀ e ∈ mv.entries, ∃ u, f.acceptElement e.2 = .ok u) ∧
            (f.Conforms v ↔ ∀ e ∈ mv.entries, f.kind.Fits e.2) := by
  obtain ⟨rfl, -⟩ := of_build_eq_ok hb
  obtain ⟨htype, hslots⟩ := slot_setAll hs
  refine ⟨htype, fun f hf v hv => ?_⟩
  rcases hslots f hf v (MessageOf.slot_of_stored? hv) with hempty | ⟨u, fresh, hmem, hu⟩
  · simp [start, List.getElem?_replicate] at hempty
  · constructor
    · intro hmap
      cases hcard : f.cardinality with
      | single => exact Field.conforms_of_accept_single hcard hu
      | repeated => exact Field.conforms_of_accept_repeated hcard hu
      | map kind => simp [Field.isMap, hcard] at hmap
    · intro kind hcard
      obtain ⟨mv, rfl, rfl, hkind, hvalues⟩ := Field.accept_map hcard hu
      have hkeyed : mv.Keyed := (hw.keyed.values _ (hc _ hmem)).own
      refine ⟨mv, rfl, hmem, hkind, hkeyed, hvalues, ?_⟩
      rw [Field.Conforms, hcard]
      constructor
      · rintro ⟨mv', he, -, -, hfits⟩
        cases he
        exact hfits
      · exact fun hfits => ⟨mv, rfl, hkind, hkeyed, hfits⟩

end Builder

namespace Shelf

def formatType : EnumType := ⟨"Format", [("PAPERBACK", 0), ("HARDCOVER", 1)]⟩

def formats : Field := ⟨"formats", 0, .enum formatType, .repeated⟩

def ratings : Field := ⟨"ratings", 1, .float, .map .string⟩

def bookType : MessageType where
  name := "Book"
  fields := [formats, ratings]
  index_eq := by decide
  nodup := by decide

def names : ListValue := ⟨⟨0⟩, [.string "HARDCOVER", .int 0]⟩

def stars : MapValue := ⟨⟨1⟩, .string, [(.string "ann", .int 5)]⟩

def workshop : Workshop where
  values := [.map stars, .int 5, .list names, .int 0, .string "HARDCOVER"]
  builders := []
  supply := 2

theorem workshop_reached : workshop.Reached := by
  have h0 := Workshop.Reached.opened 0
  have h1 := h0.step (.scalar (.string "HARDCOVER") rfl)
  have h2 := h1.step (.scalar (.int 0) rfl)
  have h3 := h2.step (.list [.string "HARDCOVER", .int 0] (by simp) rfl)
  have h4 := h3.step (.scalar (.int 5) rfl)
  exact h4.step (.map .string [(.string "ann", .int 5)] (by simp) rfl)

def calls : List (String × Value) := [("formats", .list names), ("ratings", .map stars)]

theorem mem_values_of_mem_calls : ∀ c ∈ calls, c.2 ∈ workshop.values := by
  simp [calls, workshop]

def book : Message where
  ident := ⟨3⟩
  type := bookType
  slots := [some (.list ⟨⟨2⟩, [.int 1, .int 0]⟩), some (.map stars)]

theorem run_setAll_calls :
    ((Builder.start bookType).setAll calls).run 2 = (⟨bookType, book.slots, none⟩, 3) := rfl

theorem run_build_book :
    (Builder.build ⟨bookType, book.slots, none⟩).run 3 = (.ok book, 4) := rfl

end Shelf

/-- A list of names of formats is stored in the form of its field. -/
theorem Builder.conforms_of_build_book :
    Shelf.workshop.Reached ∧ (∀ c ∈ Shelf.calls, c.2 ∈ Shelf.workshop.values) ∧
      ((start Shelf.bookType).setAll Shelf.calls).run 2 =
        (⟨Shelf.bookType, Shelf.book.slots, none⟩, 3) ∧
      (build ⟨Shelf.bookType, Shelf.book.slots, none⟩).run 3 = (.ok Shelf.book, 4) ∧
      Shelf.formats.Conforms (.list ⟨⟨2⟩, [.int 1, .int 0]⟩) := by
  have h := conforms_of_build Shelf.workshop_reached Shelf.mem_values_of_mem_calls
    Shelf.run_setAll_calls Shelf.run_build_book
  exact ⟨Shelf.workshop_reached, Shelf.mem_values_of_mem_calls, Shelf.run_setAll_calls,
    Shelf.run_build_book, (h.2 Shelf.formats (.head _) _ rfl).1 rfl⟩

/-- The integer in the map stays an integer, where the field is one of doubles. -/
theorem Builder.not_conforms_ratings :
    Shelf.workshop.Reached ∧ (∀ c ∈ Shelf.calls, c.2 ∈ Shelf.workshop.values) ∧
      ((start Shelf.bookType).setAll Shelf.calls).run 2 =
        (⟨Shelf.bookType, Shelf.book.slots, none⟩, 3) ∧
      (build ⟨Shelf.bookType, Shelf.book.slots, none⟩).run 3 = (.ok Shelf.book, 4) ∧
      Shelf.book.stored? Shelf.ratings = some (.map Shelf.stars) ∧
      ¬ Shelf.ratings.Conforms (.map Shelf.stars) := by
  refine ⟨Shelf.workshop_reached, Shelf.mem_values_of_mem_calls, Shelf.run_setAll_calls,
    Shelf.run_build_book, rfl, ?_⟩
  rintro ⟨m, hm, -, -, hfits⟩
  cases hm
  obtain ⟨x, hx⟩ := hfits (.string "ann", .int 5) (.head _)
  cases hx

end RecordPath
