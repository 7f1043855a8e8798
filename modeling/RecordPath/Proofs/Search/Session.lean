import Mathlib.Logic.Relation
import RecordPath.Proofs.Search.Counter

namespace RecordPath

structure Underway where
  steps : List Step
  queue : OnceQueue Pending Visit

/-- A program in the middle of its work, with its records and its searches. Nothing is lost: what
was pending in a search stays after the next turn. -/
structure Session where
  workshop : Workshop
  searches : List Underway

def Workshop.gain (w : Workshop) (vs : List Value) (n : Nat) : Workshop :=
  { w with values := vs ++ w.values, supply := n }

/-- Nothing that a program has is lost. -/
theorem Workshop.Step.subset {w w' : Workshop} (h : Workshop.Step w w') :
    w.values ⊆ w'.values ∧ w.builders ⊆ w'.builders := by
  cases h with
  | scalar | part | list | map | empty | build =>
    exact ⟨List.subset_cons_self .., List.Subset.refl _⟩
  | start | set => exact ⟨List.Subset.refl _, List.subset_cons_self ..⟩
  | draw => exact ⟨List.Subset.refl _, List.Subset.refl _⟩

theorem Workshop.Holds.gain {w : Workshop} {known known' : Value → Prop} {vs : List Value}
    {n : Nat} (h : w.Holds known) (hc : Coherent known' n) (hk : ∀ v, known v → known' v)
    (hv : ∀ v ∈ vs, known' v) : (w.gain vs n).Holds known' where
  coherent := hc
  values v hmem := (List.mem_append.1 hmem).elim (hv v) fun hmem => hk v (h.values v hmem)
  slots b hb v hmem := hk v (h.slots b hb v hmem)
  accepted := h.accepted

namespace Coherent

variable {known : Value → Prop} {supply : Nat}

theorem known_of_contribution (h : Coherent known supply) {v : Value} (hv : known v) :
    ∀ u ∈ Search.contribution v, known u := by
  cases v with
  | list l => exact h.part _ hv
  | _ => exact List.forall_mem_singleton.2 hv

/-- A step of a path comes upon new identities only. -/
theorem growsTo_expand (h : Coherent known supply) {p : Pending} (hp : known p.value)
    (step : Step) : GrowsTo supply known
      fun v => known v ∨ ∃ q ∈ ((p.expand step).run supply).1.pushes, q.value = v where
  keeps _ := .inl
  fresh := by
    rintro v (hv | ⟨q, hq, rfl⟩)
    · exact .inl hv
    · have hq := h.sources.gathered_expand (.known hp) (Nat.le_refl supply) step q hq
      refine hq.known_or_ident?.imp_right ?_
      rintro ⟨i, hi, hle, -⟩
      exact ⟨⟨i⟩, hi, hle⟩

end Coherent

/-- The lists, maps and messages that the operations on records and the steps of a search construct
under the number `n`. -/
inductive Constructed (n : Nat) : Value → Prop
  | list {v : Value} {k : Nat} (items : List Value) (h : (Value.newList items).run n = (v, k)) :
      Constructed n v
  | map {m : MapValue} {k : Nat} (kind : KeyKind) (entries : List (MapKey × Value))
      (h : (MapValue.create kind entries).run n = (.ok m, k)) : Constructed n (.map m)
  | empty {m : Message} {k : Nat} (type : MessageType)
      (h : (MessageOf.empty type).run n = (m, k)) : Constructed n (.message m)
  | build {b : Builder} {m : Message} {k : Nat} (h : b.build.run n = (.ok m, k)) :
      Constructed n (.message m)
  /-- A builder replaces a list whose elements it has changed. -/
  | changed {f : Field} {u v : Value} (h : f.accept ⟨n⟩ u = .ok v) (hne : v ≠ u)
      (hv : v.ident? ≠ none) : Constructed n v
  | unset {m : Message} {f : Field} {v : Value} (h : m.getAs f ⟨n⟩ = some v)
      (hs : m.stored? f = none) (hv : v.ident? ≠ none) : Constructed n v
  | namedList {f : Field} (hf : f.isEnum = true) (l : ListValue) :
      Constructed n (f.nameOrdinals ⟨n⟩ (.list l))
  | namedMap {f : Field} (hf : f.isEnum = true) (m : MapValue) :
      Constructed n (f.nameOrdinals ⟨n⟩ (.map m))
  | filtered {p q : Pending} (expr : Expr) (ctx : Context) (l : ListValue)
      (hq : q ∈ (p.filterList expr ctx l ⟨n⟩).pushes) : Constructed n q.value

/-- What is constructed has the identity that is drawn for it. -/
theorem Constructed.ident? {n : Nat} {v : Value} (h : Constructed n v) : v.ident? = some ⟨n⟩ := by
  cases h with
  | list items h | empty type h =>
    cases h
    rfl
  | map kind entries h => exact congrArg some (MapValue.of_create_eq_ok h).1
  | build h =>
    obtain ⟨rfl, -⟩ := Builder.of_build_eq_ok h
    rfl
  | changed h hne hv =>
    rcases Field.accept_cases h with he | hn | ⟨items, rfl, -⟩
    · exact absurd he hne
    · exact absurd hn hv
    · rfl
  | unset h hs hv =>
    rcases MessageOf.getAs_cases h with hu | ⟨-, rfl | ⟨kind, rfl⟩⟩ | hn
    · cases hs.symm.trans hu
    · rfl
    · rfl
    · exact absurd hn hv
  | namedList hf l | namedMap hf m =>
    unfold Field.nameOrdinals
    rw [if_pos hf]
    rfl
  | filtered expr ctx l hq =>
    unfold Pending.filterList at hq
    dsimp only at hq
    split at hq
    · cases hq
    · rw [List.mem_singleton.1 hq]
      rfl

namespace Session

def opened (supply : Nat) : Session := ⟨.opened supply, []⟩

def searching (s : Session) (steps : List RecordPath.Step) (root : Message) : Session :=
  let queue := (Search.start root s.workshop.supply Pending.shownKey?).queue
  { s with searches := ⟨steps, queue⟩ :: s.searches }

def turned (s : Session) (steps : List RecordPath.Step) (f : Findings) (t : Search) : Session :=
  ⟨s.workshop.gain f.values t.supply, ⟨steps, t.queue⟩ :: s.searches⟩

inductive Step : Session → Session → Prop
  | work {s : Session} {w : Workshop} (h : Workshop.Step s.workshop w) :
      Step s { s with workshop := w }
  | clone {s : Session} {v : Value} (hv : v ∈ s.workshop.values) :
      Step s { s with workshop := s.workshop.gain [v] s.workshop.supply }
  /-- Reading a field, whether it is set or not. -/
  | get {s : Session} {m : Message} {f : Field} {v : Value} {n : Nat}
      (hm : .message m ∈ s.workshop.values) (hv : (m.get f).run s.workshop.supply = (some v, n)) :
      Step s { s with workshop := s.workshop.gain [v] n }
  | search {s : Session} {root : Message} (steps : List RecordPath.Step)
      (hr : .message root ∈ s.workshop.values) : Step s (s.searching steps root)
  | turn {s : Session} {u : Underway} {f : Findings} {t : Search} (hu : u ∈ s.searches)
      (ht : Search.advance? u.steps ⟨u.queue, s.workshop.supply⟩ Pending.shownKey? =
        some (f, t)) : Step s (s.turned u.steps f t)

inductive Reached : Session → Prop
  | opened (supply : Nat) : Reached (opened supply)
  | step {s s' : Session} (h : Reached s) (hs : Step s s') : Reached s'

/-- A value that a program has, that it has set in a builder or that is pending in a search, or that
is part of such a value at any depth. -/
inductive Has (s : Session) : Value → Prop
  | value {v : Value} (hv : v ∈ s.workshop.values) : Has s v
  | slot {b : Builder} {v : Value} (hb : b ∈ s.workshop.builders) (hv : some v ∈ b.slots) : Has s v
  | pending {u : Underway} {p : Pending} (hu : u ∈ s.searches) (hp : p ∈ u.queue.toList) :
      Has s p.value
  | part {v u : Value} (h : Has s v) (hu : u ∈ v.parts) : Has s u

section Growth

variable {s s' s'' : Session} {v : Value}

structure Extends (s s' : Session) : Prop where
  values : s.workshop.values ⊆ s'.workshop.values
  builders : s.workshop.builders ⊆ s'.workshop.builders
  searches : s.searches ⊆ s'.searches

theorem Extends.trans (h : Extends s s') (h' : Extends s' s'') : Extends s s'' :=
  ⟨List.Subset.trans h.values h'.values, List.Subset.trans h.builders h'.builders,
    List.Subset.trans h.searches h'.searches⟩

theorem Extends.has (h : Extends s s') (hv : s.Has v) : s'.Has v := by
  induction hv with
  | value hv => exact .value (h.values hv)
  | slot hb hv => exact .slot (h.builders hb) hv
  | pending hu hp => exact .pending (h.searches hu) hp
  | part _ hu ih => exact ih.part hu

theorem Step.extends (h : Step s s') : Extends s s' := by
  cases h with
  | work h => exact ⟨h.subset.1, h.subset.2, List.Subset.refl _⟩
  | clone | get => exact ⟨List.subset_cons_self .., List.Subset.refl _, List.Subset.refl _⟩
  | search => exact ⟨List.Subset.refl _, List.Subset.refl _, List.subset_cons_self ..⟩
  | turn =>
    exact ⟨List.subset_append_right .., List.Subset.refl _, List.subset_cons_self ..⟩

theorem extends_of_steps (h : Relation.ReflTransGen Step s s') : Extends s s' := by
  induction h with
  | refl => exact ⟨List.Subset.refl _, List.Subset.refl _, List.Subset.refl _⟩
  | tail _ hs ih => exact ih.trans hs.extends

end Growth

section Identity

variable {s s' : Session} {known known' : Value → Prop} {v : Value}

structure Holds (s : Session) (known : Value → Prop) : Prop where
  workshop : s.workshop.Holds known
  pending : ∀ u ∈ s.searches, ∀ p ∈ u.queue.toList, known p.value

theorem Holds.known_of_has (h : s.Holds known) (hv : s.Has v) : known v := by
  induction hv with
  | value hv => exact h.workshop.values _ hv
  | slot hb hv => exact h.workshop.slots _ hb _ hv
  | pending hu hp => exact h.pending _ hu _ hp
  | part _ hu ih => exact h.workshop.coherent.part _ ih _ hu

theorem Holds.work {w : Workshop} {n : Nat} (h : s.Holds known) (hg : GrowsTo n known known')
    (hw : w.Holds known') : ({ s with workshop := w } : Session).Holds known' :=
  ⟨hw, fun u hu p hp => hg.keeps _ (h.pending u hu p hp)⟩

/-- An unset list or map is read as a new one that is empty. -/
theorem Holds.get {m : Message} {f : Field} (h : s.Holds known)
    (hm : .message m ∈ s.workshop.values) (hv : m.getAs f ⟨s.workshop.supply⟩ = some v) :
    ∃ known', GrowsTo s.workshop.supply known known' ∧
      (s.workshop.gain [v] (s.workshop.supply + (m.isVacant f).toNat)).Holds known' := by
  rcases MessageOf.getAs_cases hv with hu | ⟨hvacant, hmade⟩ | hn
  · have hpart := h.workshop.coherent.part _ (h.workshop.values _ hm) v
      (MessageOf.mem_parts_of_stored? hu)
    exact ⟨known, .refl .., (h.workshop.draw _).addValue hpart⟩
  · rw [hvacant]
    rcases hmade with rfl | ⟨kind, rfl⟩
    · exact ⟨_, .insert rfl, h.workshop.addContainer (List.forall_mem_nil _) rfl nofun⟩
    · exact ⟨_, .insert rfl, h.workshop.addContainer (List.forall_mem_nil _) rfl nofun⟩
  · exact ⟨known, .refl .., (h.workshop.draw _).addValue (h.workshop.coherent.scalar v hn)⟩

/-- A turn adds what the oldest item yields to the values, or what its expansion passes on to what
is pending. -/
theorem Holds.turn {u : Underway} {f : Findings} {t : Search} (h : s.Holds known)
    (hu : u ∈ s.searches)
    (ht : Search.advance? u.steps ⟨u.queue, s.workshop.supply⟩ Pending.shownKey? =
      some (f, t)) :
    ∃ known', GrowsTo s.workshop.supply known known' ∧ (s.turned u.steps f t).Holds known' := by
  obtain ⟨p, queue, hpop, hcase⟩ := Search.advance?_cases ht
  have hpending := h.pending u hu
  rw [OnceQueue.toList_of_pop? hpop] at hpending
  obtain ⟨hp, hrest⟩ := List.forall_mem_cons.1 hpending
  rcases hcase with ⟨-, hf, rfl⟩ | ⟨step, -, hf, rfl⟩
  · have hvalues := h.workshop.coherent.known_of_contribution hp
    rw [← hf] at hvalues
    exact ⟨known, .refl .., h.workshop.gain h.workshop.coherent (fun _ => id) hvalues,
      List.forall_mem_cons.2 ⟨hrest, h.pending⟩⟩
  · have hc := h.workshop.coherent.expand hp step
    have hg := h.workshop.coherent.growsTo_expand hp step
    have hvalues : ∀ v ∈ f.values, known v ∨
        ∃ q ∈ ((p.expand step).run s.workshop.supply).1.pushes, q.value = v := by simp [hf]
    have hworkshop := h.workshop.gain hc hg.keeps hvalues
    refine ⟨_, hg, hworkshop, List.forall_mem_cons.2 ⟨fun q hq => ?_,
      fun u hu q hq => hg.keeps _ (h.pending u hu q hq)⟩⟩
    rcases (Search.mem_pushAll [] queue _).2 q hq with hq | hq
    · exact .inl (hrest q hq)
    · exact .inr ⟨q, hq, rfl⟩

/-- What a step adds has identities that were free. -/
theorem Step.holds (hs : Step s s') (h : s.Holds known) :
    ∃ known', GrowsTo s.workshop.supply known known' ∧ s'.Holds known' := by
  cases hs with
  | work hw =>
    obtain ⟨known', hg, hk⟩ := hw.holds h.workshop
    exact ⟨known', hg, h.work hg hk⟩
  | clone hv =>
    exact ⟨known, .refl .., h.workshop.addValue (h.workshop.values _ hv), h.pending⟩
  | @get m f v n hm hv =>
    obtain ⟨hread, rfl⟩ : m.getAs f ⟨s.workshop.supply⟩ = some v ∧
        s.workshop.supply + (m.isVacant f).toNat = n := Prod.mk.inj hv
    obtain ⟨known', hg, hk⟩ := h.get hm hread
    exact ⟨known', hg, h.work hg hk⟩
  | @search root steps hr =>
    refine ⟨known, .refl .., h.workshop, List.forall_mem_cons.2 ⟨?_, h.pending⟩⟩
    rw [Search.toList_start]
    exact List.forall_mem_singleton.2 (h.workshop.values _ hr)
  | turn hu ht => exact h.turn hu ht

theorem Reached.holds (h : s.Reached) : ∃ known, s.Holds known := by
  induction h with
  | opened supply =>
    obtain ⟨known, hk⟩ := (Workshop.Reached.opened supply).holds
    exact ⟨known, hk, List.forall_mem_nil _⟩
  | step _ hs ih =>
    obtain ⟨known, hk⟩ := ih
    obtain ⟨known', -, hk'⟩ := hs.holds hk
    exact ⟨known', hk'⟩

def Held (s : Session) (v : Value) : Prop := v.ident? = none ∨ s.Has v

/-- What a session has is coherent, and nothing else is needed for that. -/
theorem Reached.holds_held (h : s.Reached) : s.Holds s.Held := by
  obtain ⟨known, hk⟩ := h.holds
  have hc := hk.workshop.coherent
  have hheld : ∀ v, s.Held v → known v := fun v hv => hv.elim (hc.scalar v) hk.known_of_has
  constructor
  · refine ⟨hc.restrict hheld (fun _ => .inl) ?_ ?_, fun v hv => .inr (.value hv),
      fun b hb v hv => .inr (.slot hb hv), hk.workshop.accepted⟩
    · rintro v (hv | hv) u hu
      · exact .inl ((Coherent.nothing 0).part v hv u hu)
      · exact .inr (hv.part hu)
    · exact fun v i hv => hc.below v i (hheld v hv)
  · exact fun u hu p hp => .inr (.pending hu hp)

theorem Reached.eq_of_ident? {u v : Value} (h : s.Reached) (hu : s.Has u) (hv : s.Has v)
    (he : u.ident? = v.ident?) (hne : u.ident? ≠ none) : u = v :=
  h.holds_held.workshop.coherent.same u v (.inr hu) (.inr hv) he hne

/-- The counter is above every identity that has been drawn. -/
theorem Reached.number_lt {i : Ident} (h : s.Reached) (hv : s.Has v) (hi : v.ident? = some i) :
    i.number < s.workshop.supply :=
  h.holds_held.workshop.coherent.below v i (.inr hv) hi

theorem Reached.pairwise_pushes {p : Pending} (h : s.Reached) (step : RecordPath.Step)
    (hp : s.Has p.value) :
    ((p.expand step).run s.workshop.supply).1.pushes.Pairwise fun q r =>
      ∀ i, q.value.ident? = some i → r.value.ident? = some i → s.Has q.value := by
  have hc := h.holds_held.workshop.coherent
  refine (hc.sources.pairwise_expand hc.below (.inr hp) step).imp fun hshare i hi hri => ?_
  refine (hshare i hi hri).resolve_left fun hn => ?_
  cases hn.symm.trans hi

theorem Reached.new_of_step (h : s.Reached) (hs : Step s s') (hv : s'.Has v)
    (hne : v.ident? ≠ none) : s.Has v ∨ ∀ u, s.Has u → u.ident? ≠ v.ident? := by
  obtain ⟨known', hg, hk'⟩ := hs.holds h.holds_held
  rcases hg.fresh v (hk'.known_of_has hv) with (hn | hv) | ⟨i, hi, hle⟩
  · exact absurd hn hne
  · exact .inl hv
  · refine .inr fun u hu he => ?_
    exact absurd (h.number_lt hu (he.trans hi)) (Nat.not_lt.2 hle)

end Identity

section Searching

variable {s : Session} {root : Message}

/-- The turns of a search are steps of a session that has begun it. -/
theorem exists_steps_run {steps : List RecordPath.Step} (a : Search) {s : Session}
    (hu : ⟨steps, a.queue⟩ ∈ s.searches) (hs : s.workshop.supply = a.supply) :
    let r := a.run steps Pending.shownKey?
    ∃ s', Relation.ReflTransGen Step s s' ∧ s'.workshop.supply = r.2 ∧
      r.1.values ⊆ s'.workshop.values := by
  cases ha : a.advance? steps Pending.shownKey? with
  | none =>
    rw [Search.run_of_none ha]
    exact ⟨s, .refl, hs, List.nil_subset _⟩
  | some r =>
    obtain ⟨f, t⟩ := r
    have := Search.cost_advance? ha
    have hstep : Step s (s.turned steps f t) := .turn hu (hs ▸ ha)
    obtain ⟨s', hsteps, hsupply, hfound⟩ :=
      exists_steps_run t (s := s.turned steps f t) (.head _) rfl
    have hf : f.values ⊆ s'.workshop.values := fun v hv =>
      (extends_of_steps hsteps).values (List.mem_append_left _ hv)
    rw [Search.run_of_some ha]
    exact ⟨s', .head hstep hsteps, hsupply, List.append_subset.2 ⟨hf, hfound⟩⟩
termination_by a.cost steps.length

theorem exists_steps_findBranches (paths : List Path) (hr : .message root ∈ s.workshop.values) :
    let r := (Query.findBranches root paths Pending.shownKey?).run s.workshop.supply
    ∃ s', Relation.ReflTransGen Step s s' ∧ s'.workshop.supply = r.2 ∧
      r.1.values ⊆ s'.workshop.values := by
  induction paths generalizing s with
  | nil => exact ⟨s, .refl, rfl, List.nil_subset _⟩
  | cons p rest ih =>
    obtain ⟨s', hsteps, hsupply, hfound⟩ := exists_steps_run
      (.start root s.workshop.supply Pending.shownKey?) (s := s.searching p.steps root)
      (.head _) rfl
    have hfirst : Relation.ReflTransGen Step s s' := .head (.search p.steps hr) hsteps
    obtain ⟨s'', hrest, hsupply', hfound'⟩ := ih ((extends_of_steps hfirst).values hr)
    have hf := List.Subset.trans hfound (extends_of_steps hrest).values
    rw [hsupply] at hsupply' hfound'
    exact ⟨s'', hfirst.trans hrest, hsupply', List.append_subset.2 ⟨hf, hfound'⟩⟩

/-- What a query finds comes about by steps of the session. -/
theorem exists_steps_findAll (q : Query) (hr : .message root ∈ s.workshop.values) :
    let r := (q.findAll root).run s.workshop.supply
    ∃ s', Relation.ReflTransGen Step s s' ∧ s'.workshop.supply = r.2 ∧
      r.1.values ⊆ s'.workshop.values := by
  obtain ⟨s', hsteps, hsupply, hfound⟩ := exists_steps_findBranches q.branches hr
  refine ⟨s', hsteps, hsupply, List.append_subset.2 ⟨hfound, ?_⟩⟩
  -- the note that closes the search is no value
  exact List.nil_subset _

end Searching

section Drawing

variable {start : Nat} {s s' : Session} {v : Value}

theorem Step.supply_le (h : Step s s') : s.workshop.supply ≤ s'.workshop.supply := by
  cases h with
  | work h => exact h.supply_le
  | clone | search => exact Nat.le_refl _
  | get _ hv =>
    obtain rfl := (Prod.mk.inj hv).2
    exact Nat.le_add_right ..
  | turn _ ht => exact Search.supply_le_advance? ht

theorem reached_of_steps (h : Relation.ReflTransGen Step (opened start) s) : s.Reached := by
  induction h with
  | refl => exact .opened start
  | tail _ hs ih => exact ih.step hs

/-- What a session has draws its identities from where the session began to draw. -/
theorem drawnIn_of_steps (h : Relation.ReflTransGen Step (opened start) s) :
    start ≤ s.workshop.supply ∧ ∀ v, s.Has v → v.DrawnIn start s.workshop.supply := by
  have hlow : start ≤ s.workshop.supply ∧
      ∃ known, s.Holds known ∧ ∀ v i, known v → v.ident? = some i → start ≤ i.number := by
    induction h with
    | refl =>
      refine ⟨Nat.le_refl start, fun v => v.ident? = none, ⟨⟨.nothing start, ?_, ?_, ?_⟩, ?_⟩, ?_⟩
      · exact List.forall_mem_nil _
      · exact List.forall_mem_nil _
      · exact List.forall_mem_nil _
      · exact List.forall_mem_nil _
      · intro v i hv hi
        cases hv.symm.trans hi
    | tail _ hs ih =>
      obtain ⟨hle, known, hk, hfrom⟩ := ih
      obtain ⟨known', hg, hk'⟩ := hs.holds hk
      refine ⟨Nat.le_trans hle hs.supply_le, known', hk', fun v i hv hi => ?_⟩
      rcases hg.fresh v hv with hv | ⟨j, hj, hnew⟩
      · exact hfrom v i hv hi
      · cases hi.symm.trans hj
        exact Nat.le_trans hle hnew
  obtain ⟨hle, known, hk, hfrom⟩ := hlow
  exact ⟨hle, fun v hv i hi =>
    ⟨hfrom v i (hk.known_of_has hv) hi, (reached_of_steps h).number_lt hv hi⟩⟩

end Drawing

/-- The values of a session that began to draw at `start` are told apart by their identities as the
program has them. So are those that come next, as long as the counter does not come round to the
first one. -/
structure ToldApart (start : Nat) (s : Session) : Prop where
  same : ∀ u v, s.Has u → s.Has v → u.shown? = v.shown? → u.shown? ≠ none → u = v
  constructed : ∀ n v, s.workshop.supply ≤ n → n < start + 2 ^ 64 → Constructed n v →
    ∀ u, s.Has u → u.shown? ≠ v.shown?
  /-- Of what a turn comes upon, no two have an identity in common but one that was there before. -/
  turn : ∀ (p : Pending) (step : RecordPath.Step), s.Has p.value →
    ((p.expand step).run s.workshop.supply).2 ≤ start + 2 ^ 64 →
    ((p.expand step).run s.workshop.supply).1.pushes.Pairwise fun q r =>
      ∀ i, q.value.shown? = some i → r.value.shown? = some i → s.Has q.value
  /-- Nothing is lost, and what is new has an identity that nothing had. -/
  step : ∀ s', Step s s' → (∀ v, s.Has v → s'.Has v) ∧
    (s'.workshop.supply ≤ start + 2 ^ 64 → ∀ v, s'.Has v → v.shown? ≠ none →
      s.Has v ∨ ∀ u, s.Has u → u.shown? ≠ v.shown?)

section Showing

variable {start : Nat} {s s' : Session} {u v : Value}

/-- Identities that show the same before the counter comes round are the same. -/
theorem ident?_eq_of_shown? (h : Relation.ReflTransGen Step (opened start) s)
    (hn : s.workshop.supply ≤ start + 2 ^ 64) (hu : s.Has u)
    (hv : v.DrawnIn start (start + 2 ^ 64)) (he : u.shown? = v.shown?) : u.ident? = v.ident? :=
  (Value.shown?_inj (((drawnIn_of_steps h).2 u hu).mono hn) hv).1 he

theorem shown?_ne_of_constructed (h : Relation.ReflTransGen Step (opened start) s) {n : Nat}
    (hle : s.workshop.supply ≤ n) (hn : n < start + 2 ^ 64) (hv : Constructed n v)
    (hu : s.Has u) : u.shown? ≠ v.shown? := by
  have hdrawn : v.DrawnIn start (start + 2 ^ 64) := by
    intro i hi
    cases hv.ident?.symm.trans hi
    exact ⟨Nat.le_trans (drawnIn_of_steps h).1 hle, hn⟩
  intro he
  have hident := ident?_eq_of_shown? h (Nat.le_trans hle (Nat.le_of_lt hn)) hu hdrawn he
  exact absurd ((reached_of_steps h).number_lt hu (hident.trans hv.ident?)) (Nat.not_lt.2 hle)

theorem pairwise_pushes_of_steps (h : Relation.ReflTransGen Step (opened start) s) {p : Pending}
    (step : RecordPath.Step) (hp : s.Has p.value)
    (hn : ((p.expand step).run s.workshop.supply).2 ≤ start + 2 ^ 64) :
    ((p.expand step).run s.workshop.supply).1.pushes.Pairwise fun q r =>
      ∀ i, q.value.shown? = some i → r.value.shown? = some i → s.Has q.value := by
  obtain ⟨hle, hdrawn⟩ := drawnIn_of_steps h
  have hheld : ∀ u, s.Held u → u.DrawnIn start s.workshop.supply := by
    rintro u (hu | hu)
    · intro i hi
      cases hu.symm.trans hi
    · exact hdrawn u hu
  have hs := (reached_of_steps h).holds_held.workshop.coherent.sources
  have hpushes := hs.gathered_expand (.known (.inr hp)) (Nat.le_refl s.workshop.supply) step
  have hwindow (q : Pending) (hq : q ∈ ((p.expand step).run s.workshop.supply).1.pushes) :
      q.value.DrawnIn start (start + 2 ^ 64) :=
    ((hpushes q hq).drawnIn hheld hle (p.supply_le_expand step _)).mono hn
  refine List.Pairwise.imp_of_mem ?_ ((reached_of_steps h).pairwise_pushes step hp)
  intro q r hq hr hshare i hqi hri
  have he := (Value.shown?_inj (hwindow q hq) (hwindow r hr)).1 (hqi.trans hri.symm)
  obtain ⟨j, hj, -⟩ := Option.map_eq_some_iff.1 hqi
  exact hshare j hj (he ▸ hj)

theorem new_of_steps (h : Relation.ReflTransGen Step (opened start) s) (hs : Step s s')
    (hn : s'.workshop.supply ≤ start + 2 ^ 64) (hv : s'.Has v) (hne : v.shown? ≠ none) :
    s.Has v ∨ ∀ u, s.Has u → u.shown? ≠ v.shown? := by
  have hdrawn := ((drawnIn_of_steps (h.tail hs)).2 v hv).mono hn
  have hident := (reached_of_steps h).new_of_step hs hv (mt Value.shown?_eq_none.2 hne)
  refine hident.imp_right fun hnew u hu he => hnew u hu ?_
  exact ident?_eq_of_shown? h (Nat.le_trans hs.supply_le hn) hu hdrawn he

/-- In every state that a program can reach before it has drawn more than `2 ^ 64` identities,
lists, maps and messages of one identity are one and the same value, and whatever is constructed
next has an identity that none of them has. What a query finds comes about by such steps, too. -/
theorem toldApart_of_steps (h : Relation.ReflTransGen Step (opened start) s)
    (hn : s.workshop.supply ≤ start + 2 ^ 64) :
    s.ToldApart start ∧ ∀ (q : Query) (root : Message), .message root ∈ s.workshop.values →
      ∃ s', Relation.ReflTransGen Step s s' ∧
        s'.workshop.supply = ((q.findAll root).run s.workshop.supply).2 ∧
        ((q.findAll root).run s.workshop.supply).1.values ⊆ s'.workshop.values := by
  refine ⟨⟨fun u v hu hv he hne => ?_, fun n v => ?_, fun p step => ?_, fun s' hs => ⟨?_, ?_⟩⟩,
    fun q root hr => exists_steps_findAll q hr⟩
  · have hident := ident?_eq_of_shown? h hn hu (((drawnIn_of_steps h).2 v hv).mono hn) he
    exact (reached_of_steps h).eq_of_ident? hu hv hident (mt Value.shown?_eq_none.2 hne)
  · exact fun hle hlt hv u hu => shown?_ne_of_constructed h hle hlt hv hu
  · exact pairwise_pushes_of_steps h step
  · exact fun v => hs.extends.has
  · exact fun hn v hv hne => new_of_steps h hs hn hv hne

end Showing

end Session

namespace Drawer

def letters : Field := ⟨"letters", 0, .string, .repeated⟩

def drawerType : MessageType where
  name := "Drawer"
  fields := [letters]
  index_eq := by decide
  nodup := by decide

def drawer : Message := ⟨⟨0⟩, drawerType, [none]⟩

/-- A session in which the letters of an empty drawer have been read twice, and are now to be
searched for. -/
def session : Session where
  workshop := ⟨[.list ⟨⟨2⟩, []⟩, .list ⟨⟨1⟩, []⟩, .message drawer], [], 3⟩
  searches := [⟨[.descend, .field "letters"],
    (Search.start drawer 3 Pending.shownKey?).queue⟩]

theorem session_of_steps : Relation.ReflTransGen Session.Step (.opened 0) session := by
  have h0 : Relation.ReflTransGen Session.Step (.opened 0) _ :=
    .single (.work (.empty drawerType rfl))
  have h1 := h0.tail (.get (f := letters) (.head _) rfl)
  have h2 := h1.tail (.get (f := letters) (.tail _ (.head _)) rfl)
  exact h2.tail (.search [.descend, .field "letters"] (.tail _ (.tail _ (.head _))))

end Drawer

/-- The two empty lists are told apart, also from a list that is made next. -/
theorem Session.toldApart_drawer :
    Relation.ReflTransGen Step (opened 0) Drawer.session ∧
      Drawer.session.workshop.supply ≤ 0 + 2 ^ 64 ∧ Drawer.session.ToldApart 0 ∧
      (∀ u, Drawer.session.Has u → u.shown? ≠ some ⟨3⟩) := by
  have h := Drawer.session_of_steps
  have hn : Drawer.session.workshop.supply ≤ 0 + 2 ^ 64 := by decide
  have htold := (Session.toldApart_of_steps h hn).1
  exact ⟨h, hn, htold, htold.constructed 3 _ (Nat.le_refl 3) (by decide) (.list [] rfl)⟩

/-- A program may make as many lists as it likes, and keeps the first one. -/
theorem Session.exists_steps_lists (start count : Nat) :
    ∃ s, Relation.ReflTransGen Step (opened start) s ∧ s.workshop.supply = start + count ∧
      (0 < count → .list ⟨⟨start⟩, []⟩ ∈ s.workshop.values) := by
  induction count with
  | zero => exact ⟨opened start, .refl, rfl, fun h => absurd h (Nat.lt_irrefl 0)⟩
  | succ count ih =>
    obtain ⟨s, hsteps, hsupply, hfirst⟩ := ih
    refine ⟨_, hsteps.tail (.work (.list [] (List.forall_mem_nil _) rfl)), ?_, fun _ => ?_⟩
    · exact congrArg (· + 1) hsupply
    · rcases Nat.eq_zero_or_pos count with rfl | hpos
      · exact hsupply ▸ .head _
      · exact .tail _ (hfirst hpos)

/-- After `2 ^ 64` lists the identity of the first one comes again, for a list with an element. -/
theorem Session.exists_shown?_again :
    ∃ s, Relation.ReflTransGen Step (opened 1) s ∧ s.Has (.list ⟨⟨1⟩, []⟩) ∧
      s.Has (.list ⟨⟨1 + 2 ^ 64⟩, [.bool true]⟩) ∧ (Value.list ⟨⟨1⟩, []⟩).shown? = some ⟨1⟩ ∧
      (Value.list ⟨⟨1 + 2 ^ 64⟩, [.bool true]⟩).shown? = some ⟨1⟩ := by
  obtain ⟨s, hsteps, hsupply, hfirst⟩ := exists_steps_lists 1 (2 ^ 64)
  have hscalar := hsteps.tail (.work (.scalar (.bool true) rfl))
  have hlist := hscalar.tail
    (.work (.list [.bool true] (List.forall_mem_singleton.2 (.head _)) rfl))
  refine ⟨_, hlist, .value (.tail _ (.tail _ (hfirst (by decide)))), .value ?_, rfl, rfl⟩
  exact hsupply ▸ .head _

end RecordPath
