import RecordPath.Proofs.Record.Keys
import RecordPath.Proofs.Search.Selection

namespace RecordPath

/-- A map that holds for every key what `value?` gives for it, each key once and in order, and that
is shown with one member for each key, under the text of the key. -/
structure MapValue.Holds (m : MapValue) (kind : KeyKind) (value? : MapKey → Option Value) :
    Prop where
  keyKind : m.keyKind = kind
  get : ∀ key, m.get? key = value? key
  mem_iff : ∀ key value, (key, value) ∈ m.entries ↔ value? key = some value
  inOrder : MapOf.InOrder m.entries
  keyed : ∀ key value, value? key = some value → key.kind = kind
  distinct : ∀ k l, (value? k).isSome → (value? l).isSome → k.text = l.text → k = l
  shown : ∃ members, (Value.map m).toJson = .object members ∧ (members.map (·.1)).Nodup ∧
    members.Perm (m.entries.map fun e => (e.1.text, e.2.toJson)) ∧
    ∀ key value, value? key = some value → members.lookup key.text = some value.toJson

namespace MapValue

variable {m : MapValue} {kind : KeyKind} {value? : MapKey → Option Value}

theorem nodup_texts (hk : m.Keyed) (ho : MapOf.InOrder m.entries) :
    (m.entries.map fun e => e.1.text).Nodup := by
  refine List.pairwise_map.2 (ho.imp_of_mem fun {d e} hd he hlt => ?_)
  exact fun h => MapKey.ne_of_compare_lt hlt
    (MapKey.text_injective ((hk d hd).trans (hk e he).symm) h)

theorem holds_of_inOrder (hk : m.Keyed) (ho : MapOf.InOrder m.entries)
    (hl : ∀ key, m.entries.lookup key = value? key) : m.Holds m.keyKind value? := by
  have hmem (key : MapKey) (value : Value) :
      (key, value) ∈ m.entries ↔ value? key = some value := by
    rw [← hl key, Json.lookup_eq_some_iff_mem ho.nodup]
  have hkind (key : MapKey) (value : Value) (h : value? key = some value) :
      key.kind = m.keyKind := hk _ ((hmem key value).2 h)
  refine ⟨rfl, fun key => (m.get?_eq_lookup key).trans (hl key), hmem, ho, hkind, ?_, ?_⟩
  · intro k l hk' hl' htext
    obtain ⟨v, hv⟩ := Option.isSome_iff_exists.1 hk'
    obtain ⟨w, hw⟩ := Option.isSome_iff_exists.1 hl'
    exact MapKey.text_injective ((hkind k v hv).trans (hkind l w hw).symm) htext
  -- the texts are all different, so putting the members in order loses none of them
  · let shown := m.entries.map fun e => (e.1.text, e.2.toJson)
    have hnodup : (shown.map (·.1)).Nodup := by
      rw [List.map_map]
      exact nodup_texts hk ho
    have hperm := Json.perm_sorted hnodup
    refine ⟨Json.sorted shown, ?_, (hperm.map _).nodup_iff.2 hnodup, hperm, ?_⟩
    · change Json.object (Json.sorted (Value.renderEntries _ _)) = _
      rw [Value.renderEntries_eq_map]
      rfl
    · intro key value h
      rw [Json.lookup_eq_some_iff_mem ((hperm.map _).nodup_iff.2 hnodup), hperm.mem_iff]
      exact List.mem_map.2 ⟨_, (hmem key value).2 h, rfl⟩

theorem Holds.mapValues (h : m.Holds kind value?) (i : Ident) (g : Value → Value) :
    MapValue.Holds ⟨i, m.keyKind, m.entries.map fun e => (e.1, g e.2)⟩ kind
      fun key => (value? key).map g := by
  obtain ⟨rfl, hget, hmem, ho, hkind, -, -⟩ := h
  refine holds_of_inOrder ?_ (List.pairwise_map.2 ho) fun key => ?_
  · intro e he
    obtain ⟨⟨key, value⟩, hd, rfl⟩ := List.mem_map.1 he
    exact hkind key value ((hmem key value).1 hd)
  · rw [MapOf.lookup_map, ← m.get?_eq_lookup, hget]

/-- What is read from a field of ordinals is a map of their names. -/
theorem Holds.nameOrdinals (h : m.Holds kind value?) {f : Field} (hf : f.isEnum = true)
    (fresh : Ident) : ∃ m' : MapValue, f.nameOrdinals fresh (.map m) = .map m' ∧
      m'.Holds kind fun key => (value? key).map f.renameOrdinal :=
  ⟨_, if_pos hf, h.mapValues fresh f.renameOrdinal⟩

theorem run_create (kind : KeyKind) (entries : List (MapKey × Value)) (n : Nat) :
    ((create kind entries).run n).1 =
      (MapOf.collect kind [] entries).map fun sorted => ⟨⟨n⟩, kind, sorted⟩ := by
  unfold create
  cases MapOf.collect kind [] entries <;> rfl

theorem run_create_eq_error_iff {entries : List (MapKey × Value)} {e : RecordError} {n : Nat} :
    ((create kind entries).run n).1 = .error e ↔ MapOf.FirstMismatch kind entries e := by
  rw [run_create, ← MapOf.collect_eq_error_iff]
  cases MapOf.collect kind [] entries <;> simp [Except.map]

theorem exists_run_create {entries : List (MapKey × Value)} (h : ∀ d ∈ entries, d.1.kind = kind)
    (n : Nat) : ∃ m, ((create kind entries).run n).1 = .ok m ∧
      m.Holds kind fun key => entries.reverse.lookup key := by
  obtain ⟨es, hes, ho, hl⟩ := MapOf.exists_collect h List.Pairwise.nil
  refine ⟨⟨⟨n⟩, kind, es⟩, ?_, holds_of_inOrder (m := ⟨⟨n⟩, kind, es⟩) ?_ ho fun key => ?_⟩
  · rw [run_create, hes]
    rfl
  · exact MapOf.kind_of_collect (by simp) hes
  · rw [hl, List.lookup_nil, Option.or_none]

end MapValue

/-- What is read from a field that is set goes on, with ordinals as names. -/
theorem mem_readFields {next n : Nat} {reads : List (Message × Field)} {r : Message} {f : Field}
    {v : Value} (h : (r, f) ∈ reads) (hv : r.stored? f = some v) :
    ∃ fresh, ⟨next, f.nameOrdinals fresh v, some f⟩ ∈ ((readFields next reads).run n).1 := by
  induction reads generalizing n with
  | nil => cases h
  | cons read rest ih =>
    obtain ⟨m, g⟩ := read
    rcases List.mem_cons.1 h with he | h
    · cases he
      have hget : r.getAs f ⟨n⟩ = some v := by rw [MessageOf.getAs, hv]
      rw [readFields_cons_of_some hget]
      exact ⟨_, List.mem_cons_self⟩
    · cases hget : m.getAs g ⟨n⟩ with
      | none =>
        rw [readFields_cons_of_none hget]
        exact ih h
      | some u =>
        rw [readFields_cons_of_some hget]
        obtain ⟨fresh, hmem⟩ := ih h
        exact ⟨fresh, List.mem_cons_of_mem _ hmem⟩

theorem Pending.mem_expand_field {p : Pending} {name : String} {r : Message} {f : Field} {v : Value}
    (hr : r ∈ p.value.records) (hf : f ∈ r.type.fieldsNamed name) (hv : r.stored? f = some v)
    (n : Nat) : ∃ fresh,
      ⟨p.step + 1, f.nameOrdinals fresh v, some f⟩ ∈ ((p.expand (.field name)).run n).1.pushes :=
  mem_readFields (List.mem_flatMap.2 ⟨r, hr, List.mem_map.2 ⟨f, hf, rfl⟩⟩) hv

namespace MapValue

/-- Making a map fails if and only if some key is of another kind, and reports the first such key.
Otherwise the map holds the last value for every key. A field step that reads the map from a field
of an enum passes on a map that holds the names in place of the ordinals. -/
theorem holds_create (kind : KeyKind) (entries : List (MapKey × Value)) (n : Nat) :
    (∀ e, ((create kind entries).run n).1 = .error e ↔ MapOf.FirstMismatch kind entries e) ∧
    ((∃ e, ((create kind entries).run n).1 = .error e) ↔ ∃ d ∈ entries, d.1.kind ≠ kind) ∧
    ((∀ d ∈ entries, d.1.kind = kind) → ∃ m, ((create kind entries).run n).1 = .ok m ∧
      m.Holds kind (fun key => entries.reverse.lookup key) ∧
      ∀ (p : Pending) name r f i, r ∈ p.value.records → f ∈ r.type.fieldsNamed name →
        r.stored? f = some (.map m) → f.isEnum = true →
        ∃ m' : MapValue,
          ⟨p.step + 1, .map m', some f⟩ ∈ ((p.expand (.field name)).run i).1.pushes ∧
          m'.Holds kind fun key => (entries.reverse.lookup key).map f.renameOrdinal) := by
  refine ⟨fun _ => run_create_eq_error_iff, ⟨?_, ?_⟩, fun h => ?_⟩
  · rintro ⟨e, he⟩
    obtain ⟨front, d, back, rfl, -, hd, -⟩ := run_create_eq_error_iff.1 he
    exact ⟨d, List.mem_append_right front List.mem_cons_self, hd⟩
  · rintro ⟨d, hd, hkind⟩
    obtain ⟨e, he⟩ := MapOf.exists_firstMismatch hd hkind
    exact ⟨e, run_create_eq_error_iff.2 he⟩
  · obtain ⟨m, hok, hholds⟩ := exists_run_create h n
    refine ⟨m, hok, hholds, fun p name r f i hr hf hstored henum => ?_⟩
    obtain ⟨fresh, hmem⟩ := Pending.mem_expand_field hr hf hstored i
    obtain ⟨m', hm', hholds'⟩ := hholds.nameOrdinals henum fresh
    exact ⟨m', hm' ▸ hmem, hholds'⟩

end MapValue

namespace Editions

def field : Field := ⟨"editions", 0, .enum Shelf.formatType, .map .int⟩

def bookType : MessageType where
  name := "Book"
  fields := [field]
  index_eq := by decide
  nodup := by decide

def entries : List (MapKey × Value) := [(.int 10, .int 0), (.int 9, .int 1), (.int 10, .int 1)]

def editions : MapValue := ⟨⟨0⟩, .int, [(.int 9, .int 1), (.int 10, .int 1)]⟩

def book : Message := ⟨⟨1⟩, bookType, [some (.map editions)]⟩

def start : Pending := ⟨0, .message book, none⟩

end Editions

/-- The later tenth edition takes the place of the earlier one, and goes by its name after a step.
Its key comes after the nine, although its text comes before. -/
theorem MapValue.holds_create_editions :
    (∀ d ∈ Editions.entries, d.1.kind = .int) ∧
      ((create .int Editions.entries).run 0).1 = .ok Editions.editions ∧
      (Value.map Editions.editions).toJson =
        .object [("10", .number (.integer 1)), ("9", .number (.integer 1))] ∧
      ∃ m' : MapValue, ⟨1, .map m', some Editions.field⟩ ∈
          ((Editions.start.expand (.field "editions")).run 2).1.pushes ∧
        m'.get? (.int 10) = some (.string "HARDCOVER") := by
  have hkind : ∀ d ∈ Editions.entries, d.1.kind = .int := by decide
  obtain ⟨m, hok, -, hstep⟩ := (holds_create .int Editions.entries 0).2.2 hkind
  cases hok
  obtain ⟨m', hmem, hholds⟩ := hstep Editions.start "editions" Editions.book Editions.field 2
    (.head _) (.head _) rfl rfl
  exact ⟨hkind, rfl, rfl, m', hmem, (hholds.get _).trans rfl⟩

end RecordPath
