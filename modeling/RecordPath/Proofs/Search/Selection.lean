import RecordPath.Proofs.Eval.Numbers
import RecordPath.Proofs.Eval.TypeAgreement
import RecordPath.Proofs.Json.Slots
import RecordPath.Proofs.Search.Soundness
import RecordPath.Proofs.Search.Stepwise

namespace RecordPath

namespace Value

theorem renderItems_eq_map (vs : List Value) (names : Int64 → Option String) :
    renderItems vs names = vs.map (·.render names) := by
  induction vs with
  | nil => rfl
  | cons v rest ih => rw [renderItems, ih, List.map_cons]

theorem renderEntries_eq_map (entries : List (MapKey × Value)) (names : Int64 → Option String) :
    renderEntries entries names = entries.map fun e => (e.1.text, e.2.render names) := by
  induction entries with
  | nil => rfl
  | cons e rest ih => rw [renderEntries, ih, List.map_cons]

end Value

theorem Value.IsSingle.isList_eq_false {v : Value} (h : v.IsSingle) : v.isList = false := by
  obtain h | ⟨m, rfl⟩ := h
  · cases v with
    | list => cases h
    | _ => rfl
  · rfl

namespace Field

variable {f : Field} {v : Value}

theorem enumName?_of_isEnum_eq_false (h : f.isEnum = false) : f.enumName? = fun _ => none := by
  funext n
  unfold enumName?
  split
  · rename_i e hk
    simp [isEnum, hk] at h
  · rfl

/-- An ordinal that goes by its name is shown by that name. -/
theorem toJson_renameOrdinal (hv : v.IsSingle) :
    (f.renameOrdinal v).toJson = v.render f.enumName? := by
  rcases hv with hv | ⟨m, rfl⟩
  · cases v with
    | int n =>
      rw [renameOrdinal, Value.render]
      cases f.enumName? n <;> rfl
    | message | list | map => cases hv
    | _ => rfl
  · rfl

/-- What is read from a field is shown as the field itself shows it. -/
theorem toJson_nameOrdinals (hv : v.Flat) (fresh : Ident) :
    (f.nameOrdinals fresh v).toJson = v.render f.enumName? := by
  unfold nameOrdinals
  split
  · cases hv with
    | single h =>
      rw [← toJson_renameOrdinal h]
      obtain h | ⟨m, rfl⟩ := h
      · cases v with
        | message | list | map => cases h
        | _ => rfl
      · rfl
    | @list l h =>
      change Json.array (Value.renderItems (l.items.map f.renameOrdinal) _) =
        Json.array (Value.renderItems l.items f.enumName?)
      rw [Value.renderItems_eq_map, Value.renderItems_eq_map, List.map_map]
      exact congrArg Json.array (List.map_congr_left fun u hu => toJson_renameOrdinal (h u hu))
    | @map m h =>
      change Json.object (Json.sorted (Value.renderEntries _ _)) =
        Json.object (Json.sorted (Value.renderEntries m.entries f.enumName?))
      rw [Value.renderEntries_eq_map, Value.renderEntries_eq_map, List.map_map]
      refine congrArg (fun es => Json.object (Json.sorted es)) (List.map_congr_left fun e he => ?_)
      exact congrArg (Prod.mk e.1.text) (toJson_renameOrdinal (h e he))
  · rename_i henum
    rw [enumName?_of_isEnum_eq_false (Bool.eq_false_iff.2 henum)]
    rfl

theorem isList_nameOrdinals (f : Field) (fresh : Ident) (v : Value) :
    (f.nameOrdinals fresh v).isList = v.isList := by
  unfold nameOrdinals
  split
  · cases v with
    | int n =>
      change (f.renameOrdinal (.int n)).isList = false
      unfold renameOrdinal
      dsimp only
      split <;> rfl
    | _ => rfl
  · rfl

end Field

/-- What a value contributes to the findings is shown as its items, if it is a list, and otherwise
as the value. -/
theorem Search.toJson_contribution (v : Value) :
    (v.isList = true → v.toJson = .array ((contribution v).map Value.toJson)) ∧
      (v.isList = false → (contribution v).map Value.toJson = [v.toJson]) := by
  cases v with
  | list l =>
    refine ⟨fun _ => ?_, nofun⟩
    exact congrArg Json.array (Value.renderItems_eq_map l.items _)
  | _ => exact ⟨nofun, fun _ => rfl⟩

/-- How what a query selects by the name of a field follows from what a record shows under it. -/
inductive Field.Selects (f : Field) : Option Json → List Json → Prop
  | items {items : List Json} (hc : f.cardinality = .repeated) :
    Selects f (some (.array items)) items
  | noItems (hc : f.cardinality = .repeated) : Selects f none []
  | entries {j : Json} (hc : f.isMap = true) : Selects f (some j) [j]
  | noEntries (hc : f.isMap = true) : Selects f none [.object []]
  | single {j : Json} (hc : f.cardinality = .single) : Selects f (some j) [j]
  | noMessage (hc : f.cardinality = .single) (hk : f.isMessage = true) : Selects f none []
  | default {d : Value} (hd : f.default? = some d) : Selects f none [d.render f.enumName?]
  /-- A negative zero counts as zero, and so makes no field present, but it is shown as it is. -/
  | negativeZero (hc : f.cardinality = .single) (hk : f.kind = .float) :
    Selects f none [.number (.float (-0))]

namespace Field

variable {f : Field} {u v d : Value} {given fresh : Ident}

theorem eq_default_of_beq (hd : f.default? = some d) (h : (d == v) = true) :
    v = d ∨ f.kind = .float ∧ v = .float (-0) := by
  obtain he | ⟨x, y, rfl, rfl, hxy⟩ := Value.eq_of_beq_scalar (ident?_default hd) h
  · exact .inl he
  · unfold default? at hd
    split at hd
    · cases hk : f.kind <;> rw [hk] at hd <;> cases hd
      obtain rfl | rfl := Decimal.eq_zero_of_zero_beq hxy
      · exact .inl rfl
      · exact .inr ⟨rfl, rfl⟩
    · cases hd

theorem default?_of_isMessage (hk : f.isMessage = true) : f.default? = none := by
  unfold default?
  split
  · cases hkind : f.kind with
    | message name => rfl
    | _ => simp [isMessage, hkind] at hk
  · rfl

/-- A single field that holds no message has a default. -/
theorem exists_default (hc : f.cardinality = .single) (hk : f.isMessage = false) :
    ∃ d, f.default? = some d := by
  unfold default?
  rw [if_pos hc]
  unfold isMessage at hk
  cases hkind : f.kind with
  | message name =>
    rw [hkind] at hk
    cases hk
  | _ => exact ⟨_, rfl⟩

/-- A single value that is stored is shown, unless it counts as the default. -/
theorem selects_single (hc : f.cardinality = .single) (hv : v.IsSingle) :
    f.Selects (f.display v) [v.render f.enumName?] := by
  unfold display
  split
  · exact .single hc
  · rename_i hp
    obtain hv | ⟨m, rfl⟩ := hv
    · cases hd : f.default? with
      | none =>
        refine absurd ?_ hp
        cases v with
        | message | list | map => cases hv
        | _ => simp only [isPresent, hd]
      | some d =>
        rw [isPresent_of_default hv hd, Bool.not_eq_true', Bool.not_eq_false] at hp
        obtain rfl | ⟨hk, rfl⟩ := eq_default_of_beq hd hp
        · exact .default hd
        · exact .negativeZero hc hk
    · exact absurd rfl hp

/-- A list that is stored is shown with its items, unless it has none. -/
theorem selects_list {l : ListValue} {items : List Json} (hc : f.cardinality = .repeated)
    (h : (Value.list l).render f.enumName? = .array items) :
    f.Selects (f.display (.list l)) items := by
  unfold display
  split
  · rw [h]
    exact .items hc
  · rename_i hp
    obtain ⟨ident, vs⟩ := l
    obtain rfl : vs = [] := by simpa [isPresent] using hp
    rw [← Json.array.inj h]
    exact .noItems hc

/-- A map that is stored is shown, unless it is empty. -/
theorem selects_map {m : MapValue} (hc : f.isMap = true) :
    f.Selects (f.display (.map m)) [(Value.map m).render f.enumName?] := by
  unfold display
  split
  · exact .entries hc
  · rename_i hp
    obtain ⟨ident, keyKind, entries⟩ := m
    obtain rfl : entries = [] := by simpa [isPresent] using hp
    exact .noEntries hc

theorem selects_stored (h : f.accept given u = .ok v) (fresh : Ident) :
    f.Selects (f.display v)
      ((Search.contribution (f.nameOrdinals fresh v)).map Value.toJson) := by
  obtain ⟨hlist, hother⟩ := Search.toJson_contribution (f.nameOrdinals fresh v)
  rw [toJson_nameOrdinals (flat_of_accept h), isList_nameOrdinals] at hlist hother
  cases hc : f.cardinality with
  | single =>
    have hfits := conforms_of_accept_single hc h
    rw [Conforms, hc] at hfits
    have hsingle : v.IsSingle := hfits.isSingle
    rw [hother hsingle.isList_eq_false]
    exact selects_single hc hsingle
  | repeated =>
    have hfits := conforms_of_accept_repeated hc h
    rw [Conforms, hc] at hfits
    obtain ⟨l, rfl, -⟩ := hfits
    exact selects_list hc (hlist rfl)
  | map kind =>
    obtain ⟨m, rfl, -⟩ := accept_map hc h
    rw [hother rfl]
    exact selects_map (by simp [isMap, hc])

end Field

namespace MessageOf

variable {m : Message} {f : Field} {unset renamed : Ident}

theorem getAs_of_single (hc : f.cardinality = .single) (unset : Ident) :
    m.getAs f unset = (m.stored? f).or f.default? := by
  unfold getAs
  cases m.stored? f with
  | none => rw [hc, Option.none_or]
  | some v => rfl

/-- A field that is not set reads as a value that it could store without being shown for it, save
that a message is not there at all. -/
theorem getAs_unset (h : m.stored? f = none) (unset : Ident) :
    (m.getAs f unset = none ∧ f.cardinality = .single ∧ f.isMessage = true) ∨
      ∃ v, m.getAs f unset = some v ∧ f.accept unset v = .ok v ∧ f.display v = none := by
  unfold getAs
  rw [h]
  cases hc : f.cardinality with
  | single =>
    cases hk : f.isMessage with
    | true => exact .inl ⟨Field.default?_of_isMessage hk, rfl, rfl⟩
    | false =>
      obtain ⟨d, hd⟩ := Field.exists_default hc hk
      refine .inr ⟨d, hd, Field.accept_default hd unset, ?_⟩
      rw [Field.display, Field.isPresent_default hd]
      rfl
  | repeated =>
    refine .inr ⟨_, rfl, ?_, rfl⟩
    rw [Field.accept, hc]
    rfl
  | map kind =>
    refine .inr ⟨_, rfl, ?_, rfl⟩
    unfold Field.accept
    rw [hc]
    exact if_pos rfl

def selected (m : Message) (f : Field) (unset renamed : Ident) : List Value :=
  ((m.getAs f unset).map (f.nameOrdinals renamed)).toList.flatMap Search.contribution

theorem selected_of_getAs {v : Value} (h : m.getAs f unset = some v) :
    m.selected f unset renamed = Search.contribution (f.nameOrdinals renamed v) := by
  rw [selected, h]
  exact List.append_nil _

theorem selects_selected (ha : SlotsAccepted m.type m.slots) (hf : f ∈ m.type.fields)
    (unset renamed : Ident) :
    f.Selects ((m.stored? f).bind f.display) ((m.selected f unset renamed).map Value.toJson) := by
  cases hs : m.stored? f with
  | none =>
    obtain ⟨hget, hc, hk⟩ | ⟨v, hget, haccept, hdisplay⟩ := getAs_unset hs unset
    · rw [selected, hget]
      exact .noMessage hc hk
    · rw [selected_of_getAs hget, Option.bind_none, ← hdisplay]
      exact Field.selects_stored haccept renamed
  | some v =>
    have hget : m.getAs f unset = some v := by rw [getAs, hs]
    obtain ⟨given, u, haccept⟩ := ha f hf v (slot_of_stored? hs)
    rw [selected_of_getAs hget]
    exact Field.selects_stored haccept renamed

end MessageOf

theorem firsts_singleton {α κ : Type} [DecidableEq κ] (key? : α → Option κ) (a : α) :
    firsts key? [] [a] = [a] := by
  cases h : key? a with
  | none => exact firsts_cons_of_none h
  | some k => exact firsts_cons_of_not_mem h List.not_mem_nil

theorem Step.run_overList_singleton (step : Step) (v : Value) (n : Nat) :
    (Step.overList [v] step).run n =
      (firsts Value.ident? [] ((step.yields v).run n).1, ((step.yields v).run n).2) := by
  rw [overList, List.flatMapM_cons, List.flatMapM_nil]
  change (firsts Value.ident? [] (((step.yields v).run n).1 ++ []), ((step.yields v).run n).2) = _
  rw [List.append_nil]

/-- A field step reads the one field of its name. -/
theorem Step.run_yields_field {m : Message} {f : Field} (hf : f ∈ m.type.fields)
    (hname : f.name ≠ "*") (n : Nat) :
    (((Step.field f.name).yields (.message m)).run n).1 =
      ((m.getAs f ⟨n⟩).map (f.nameOrdinals ⟨n + (m.isVacant f).toNat⟩)).toList := by
  have hreads : (Value.records (.message m)).flatMap
      (fun r => (r.type.fieldsNamed f.name).map fun g => (r, g)) = [(m, f)] := by
    rw [Value.records, List.flatMap_singleton, MessageType.fieldsNamed, if_neg hname,
      MessageType.field?_of_mem hf]
    rfl
  change ((readFields 1 _).run n).1.map (·.value) = _
  rw [hreads]
  cases hv : m.getAs f ⟨n⟩ with
  | none =>
    rw [readFields_cons_of_none hv]
    rfl
  | some v =>
    rw [readFields_cons_of_some hv]
    rfl

/-- From a record a query by the name of a field selects what is read from the field. -/
theorem Query.values_find_field {m : Message} {f : Field} (hf : f ∈ m.type.fields)
    (hname : f.name ≠ "*") (n : Nat) :
    ((Query.find ⟨[⟨[.root, .field f.name]⟩]⟩ m).run n).1.values =
      m.selected f ⟨n⟩ ⟨n + (m.isVacant f).toNat⟩ := by
  have hroot : (Step.overList [.message m] .root).run n = ([.message m], n) := by
    rw [Step.run_overList_singleton]
    exact congrArg (·, n) (firsts_singleton Value.ident? (.message m))
  have hfield : ((Step.overList [.message m] (.field f.name)).run n).1 =
      ((m.getAs f ⟨n⟩).map (f.nameOrdinals ⟨n + (m.isVacant f).toNat⟩)).toList := by
    rw [Step.run_overList_singleton, Step.run_yields_field hf hname]
    cases m.getAs f ⟨n⟩ with
    | none => rfl
    | some v => exact firsts_singleton _ _
  rw [values_find_singleton]
  have hstart : Search.Between 0 [] [⟨0, .message m, none⟩] [] (.start m n) :=
    ⟨(OnceQueue.remembers_empty.push _).1, Search.toList_start m n, by simp, by simp, by simp⟩
  have hdescend : Step.descend ∉ [.root, .field f.name] := by simp
  rw [hstart.values List.drop_zero hdescend]
  change ((Step.overList ((Step.overList [.message m] .root).run n).1 (.field f.name)).run
    ((Step.overList [.message m] .root).run n).2).1.flatMap Search.contribution = _
  rw [hroot, hfield, MessageOf.selected]

/-- The task has no size, which reads as zero. -/
example : ((Query.find ⟨[⟨[.root, .field "size"]⟩]⟩ Tasks.task).run 2).1.values = [.uint 0] :=
  Query.values_find_field (f := ⟨"size", 1, .uint, .single⟩) (.tail _ (.head _)) (by decide) 2

/-- A single field of an enum reads as an ordinal. -/
theorem MessageOf.exists_ordinal {m : Message} {f : Field} {e : EnumType}
    (ha : SlotsAccepted m.type m.slots) (hf : f ∈ m.type.fields) (hk : f.kind = .enum e)
    (hc : f.cardinality = .single) :
    ∃ ordinal, (m.stored? f).or f.default? = some (.int ordinal) := by
  obtain ⟨v, hv⟩ : ∃ v, (m.stored? f).or f.default? = some v := by
    obtain ⟨d, hd⟩ := Field.exists_default hc (by simp [Field.isMessage, hk])
    cases m.stored? f with
    | none => exact ⟨d, hd⟩
    | some v => exact ⟨v, rfl⟩
  have hfits := ha.fits hf hc hv
  rw [hk] at hfits
  obtain ⟨ordinal, rfl⟩ := hfits
  exact ⟨ordinal, hv⟩

/-- An ordinal that a record holds in a single field, or that the field defaults to, goes by its
name in a query as it does in an expression. -/
theorem MessageOf.selected_of_name {m : Message} {f : Field} {e : EnumType} {ordinal : Int64}
    {s : String} (hk : f.kind = .enum e) (hc : f.cardinality = .single)
    (hv : (m.stored? f).or f.default? = some (.int ordinal)) (hs : e.nameOf? ordinal = some s)
    (unset renamed : Ident) : m.selected f unset renamed = [.string s] := by
  have henum : f.isEnum = true := by simp [Field.isEnum, hk]
  have hname : f.enumName? ordinal = some s := by
    unfold Field.enumName?
    rw [hk]
    exact hs
  have hread : f.nameOrdinals renamed (.int ordinal) = f.renameOrdinal (.int ordinal) :=
    if_pos henum
  rw [selected_of_getAs ((getAs_of_single hc unset).trans hv), hread, Field.renameOrdinal, hname]
  rfl

theorem Context.property_of_name {m : Message} {f : Field} {e : EnumType} {ordinal : Int64}
    {s : String} {ctx : Context} (hf : f ∈ m.type.fields) (hname : f.name ≠ "*")
    (hk : f.kind = .enum e) (hc : f.cardinality = .single)
    (hv : (m.stored? f).or f.default? = some (.int ordinal)) (hs : e.nameOf? ordinal = some s)
    (hm : ctx.this = .message m) (hd : ctx.useDefault = true) (hp : ctx.presence = false) :
    ctx.property f.name = .ok (.string s) := by
  have hdeclares : ctx.this.Declares f.name m f := ⟨hm, hname, MessageType.field?_of_mem hf⟩
  have hscalar : f.isScalar = true := by simp [Field.isScalar, Field.isMessage, hc, hk]
  have hread := (Reads.value hdeclares hp hscalar (by rw [hd, Bool.or_true])).eq
  rw [hread, MessageOf.scalar_enum hv hk, hs]
  rfl

/-- What a query selects by the name of a field is shown as the record shows the field. A field
that the record does not show yields nothing, an empty map or its default. Ordinals go by the same
names as in expressions. -/
theorem Query.selects_field {w : Workshop} {m : Message} {f : Field} (hw : w.Reached)
    (hm : .message m ∈ w.values) (hf : f ∈ m.type.fields) (hname : f.name ≠ "*") (n : Nat) :
    let found := ((Query.find ⟨[⟨[.root, .field f.name]⟩]⟩ m).run n).1.values.map Value.toJson
    (∃ members, (Value.message m).toJson = .object members ∧
      f.Selects (members.lookup f.name) found) ∧
    ∀ e, f.kind = .enum e → f.cardinality = .single →
      ∃ ordinal, (m.stored? f).or f.default? = some (.int ordinal) ∧
        ∀ s, e.nameOf? ordinal = some s → found = [.string s] ∧
          ∀ ctx : Context, ctx.this = .message m → ctx.useDefault = true → ctx.presence = false →
            (Expr.property f.name).eval ctx = .ok (.string s) := by
  intro found
  obtain ⟨known, hk⟩ := hw.holds
  have haccepted : SlotsAccepted m.type m.slots := hk.coherent.accepted m (hk.values _ hm)
  have hfound : found = (m.selected f ⟨n⟩ ⟨n + (m.isVacant f).toNat⟩).map Value.toJson :=
    congrArg (List.map Value.toJson) (values_find_field hf hname n)
  rw [hfound]
  constructor
  · obtain ⟨members, hjson, hlookup⟩ := m.exists_members
    refine ⟨members, hjson, ?_⟩
    rw [hlookup f hf]
    exact MessageOf.selects_selected haccepted hf _ _
  · intro e he hc
    obtain ⟨ordinal, hv⟩ := MessageOf.exists_ordinal haccepted hf he hc
    refine ⟨ordinal, hv, fun s hs => ⟨?_, fun ctx hthis hd hp => ?_⟩⟩
    · rw [MessageOf.selected_of_name he hc hv hs]
      rfl
    · exact Context.property_of_name hf hname he hc hv hs hthis hd hp

/-- The state of a task, which is shown as it is found. -/
theorem Query.selects_field_state :
    let state : Field := ⟨"state", 0, .enum Tasks.stateType, .single⟩
    let found := ((Query.find ⟨[⟨[.root, .field "state"]⟩]⟩ Tasks.task).run 2).1.values.map
      Value.toJson
    Tasks.workshop.Reached ∧ .message Tasks.task ∈ Tasks.workshop.values ∧
      state ∈ Tasks.task.type.fields ∧ "state" ≠ "*" ∧
      (∃ members, (Value.message Tasks.task).toJson = .object members ∧
        state.Selects (members.lookup "state") found) ∧
      found = [.string "DONE"] := by
  intro state found
  have hm : .message Tasks.task ∈ Tasks.workshop.values := .head _
  have hf : state ∈ Tasks.task.type.fields := .head _
  have hname : state.name ≠ "*" := by decide
  obtain ⟨hselects, henum⟩ := selects_field Tasks.workshop_reached hm hf hname 2
  obtain ⟨ordinal, hv, hs⟩ := henum Tasks.stateType rfl rfl
  cases hv
  exact ⟨Tasks.workshop_reached, hm, hf, hname, hselects, (hs "DONE" rfl).1⟩

end RecordPath
