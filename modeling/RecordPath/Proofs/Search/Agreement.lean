import RecordPath.Proofs.Record.Lasting
import RecordPath.Proofs.Search.Counter
import RecordPath.Proofs.Search.Lockstep

namespace RecordPath

variable {ρ σ : Ident → Ident → Prop}

theorem SlotsFilled.refl {R : Value → Value → Prop} {slots : List (Option Value)}
    {fields : List Field} (hlen : slots.length = fields.length)
    (h : ∀ v, some v ∈ slots → R v v) : SlotsFilled R slots slots fields := by
  induction slots generalizing fields with
  | nil => exact .nil
  | cons x rest ih =>
    cases fields with
    | nil => cases hlen
    | cons f fields =>
      have hrest := ih (Nat.succ.inj hlen) fun v hv => h v (List.mem_cons_of_mem x hv)
      cases x with
      | none => exact .cons .empty hrest
      | some v => exact .cons (.kept (h v (.head _))) hrest

namespace Value

def EachIdent (P : Ident → Prop) (v : Value) : Prop :=
  ∀ u i, v.Contains u → u.ident? = some i → P i

theorem EachIdent.part {P : Ident → Prop} {u v : Value} (h : v.EachIdent P) (hu : u ∈ v.parts) :
    u.EachIdent P :=
  fun w i hw => h w i ((Contains.self.part hu).trans hw)

theorem lasting_filled (ρ : Ident → Ident → Prop) :
    Lasting fun v => v.EachIdent (fun i => ρ i i) → Filled ρ v v where
  scalar v hv _ := .scalar hv
  list i items hp h :=
    .list (h _ i .self rfl) (List.forall₂_same.2 fun u hu => hp u hu (h.part hu))
  map kind entries m n k _ hp h := by
    refine .map (h _ m.ident .self rfl) rfl (List.forall₂_same.2 fun e he => ?_)
    exact .mk e.1 (hp e he (h.part (List.mem_map_of_mem he)))
  message i type slots hlen hp h := by
    refine .message (h _ i .self rfl) rfl (SlotsFilled.refl hlen fun v hv => ?_)
    exact hp v hv (h.part (mem_parts_message.2 hv))

/-- One and the same value, or maps of one content under identities that were drawn from `m` and
from `n` on. -/
inductive Agree (m n : Nat) : Value → Value → Prop
  | same (v : Value) : Agree m n v v
  | map {i j : Nat} {kind : KeyKind} {entries : List (MapKey × Value)} (hi : m ≤ i) (hj : n ≤ j) :
      Agree m n (.map ⟨⟨i⟩, kind, entries⟩) (.map ⟨⟨j⟩, kind, entries⟩)

/-- What was found is known, unless it is a map that was made of what is known. -/
theorem Found.known_or_map {known : Value → Prop} {m n : Nat} {v : Value}
    (h : v.Found known known m n) :
    known v ∨ ∃ i kind entries, v = .map ⟨⟨i⟩, kind, entries⟩ ∧ m ≤ i ∧
      ∀ e ∈ entries, known e.2 := by
  cases h.gathered with
  | known hk => exact .inl hk
  | list => exact .inl (h.element rfl)
  | map hm _ he => exact .inr ⟨_, _, _, rfl, hm, he⟩

end Value

theorem forall₂_imp_of_mem {α β : Type} {R S : α → β → Prop} {xs : List α} {ys : List β}
    (h : List.Forall₂ R xs ys) (hRS : ∀ a ∈ xs, ∀ b ∈ ys, R a b → S a b) :
    List.Forall₂ S xs ys := by
  induction h with
  | nil => exact .nil
  | cons hab _ ih =>
    refine .cons (hRS _ (.head _) _ (.head _) hab) (ih fun a ha b hb => ?_)
    exact hRS a (List.mem_cons_of_mem _ ha) b (List.mem_cons_of_mem _ hb)

/-- Identities are paired one by one, those of known values with themselves. -/
structure Settled (σ : Ident → Ident → Prop) (known : Value → Prop) : Prop where
  unique : Relator.BiUnique σ
  fixed : ∀ v i, known v → v.ident? = some i → σ i i

section Agreement

variable {known : Value → Prop} {m m' n n' : Nat} {v w : Value}

/-- What is paired with a known value is that value, if it was gathered from known ones. -/
theorem Coherent.eq_of_paired (h : Coherent known n) (hσ : Relator.RightUnique σ) {i j : Ident}
    (hv : known v) (hw : w.Gathered known known n n') (hvi : v.ident? = some i)
    (hwj : w.ident? = some j) (hii : σ i i) (hij : σ i j) : v = w := by
  obtain rfl := hσ hii hij
  exact h.eq_of_gathered hv hw (hvi.trans hwj.symm) (by simp [hvi])

namespace Settled

theorem eq_of_filled (hs : Settled σ known) (h : Coherent known n) (hv : known v)
    (hw : w.Gathered known known n n') (hf : v.Filled σ w) : v = w := by
  cases hf with
  | scalar => rfl
  | message hi | list hi | map hi =>
    exact h.eq_of_paired hs.unique.2 hv hw rfl rfl (hs.fixed _ _ hv rfl) hi

/-- What two searches come across together agrees. -/
theorem agree_of_filled (hs : Settled σ known) (hm : Coherent known m) (hn : Coherent known n)
    (hv : v.Found known known m m') (hw : w.Found known known n n') (hf : v.Filled σ w) :
    v.Agree m n w := by
  rcases hv.known_or_map with hk | ⟨i, kind, entries, rfl, hi, he⟩
  · rw [hs.eq_of_filled hn hk hw.gathered hf]
    exact .same w
  · cases hf with
    | scalar hscalar => cases hscalar
    | @map _ k hij hkind hentries =>
      rcases hw.known_or_map with hk | ⟨j, kind', entries', hmap, hj, he'⟩
      -- one map is known, so that the other would have to be, by the pairing read backwards
      · rw [hm.eq_of_paired (σ := flip σ) hs.unique.1.flip hk hv.gathered rfl rfl
          (hs.fixed _ _ hk rfl) hij]
        exact .same _
      · cases hmap
        obtain rfl : kind' = kind := hkind
        have hall : List.Forall₂ (· = ·) entries entries' := by
          refine forall₂_imp_of_mem hentries fun e hmem e' hmem' hfilled => ?_
          cases hfilled with
          | @mk key u t hf =>
            have ht : t.Gathered known known n n := .known (he' _ hmem')
            exact congrArg (Prod.mk key) (hs.eq_of_filled hn (he _ hmem) ht hf)
        rw [List.forall₂_eq_eq_eq] at hall
        rw [hall]
        exact .map hi hj

end Settled

end Agreement

namespace Value

def Own (v : Value) (i j : Ident) : Prop := i = j ∧ ∃ u, v.Contains u ∧ u.ident? = some i

theorem pairing_own {v : Value} {m n : Nat} (hm : v.EachIdent (·.number < m))
    (hn : v.EachIdent (·.number < n)) : Pairing v.Own m n where
  unique :=
    ⟨fun _ _ _ hik hjk => hik.1.trans hjk.1.symm, fun _ _ _ hij hik => hij.1.symm.trans hik.1⟩
  below := by
    rintro i _ ⟨rfl, u, hu, hi⟩
    exact ⟨hm u i hu hi, hn u i hu hi⟩

def Within (v u : Value) : Prop := u.ident? = none ∨ v.Contains u

end Value

/-- What is in a known value is coherent above all its identities. -/
theorem Coherent.within {known : Value → Prop} {supply n : Nat} {v : Value}
    (h : Coherent known supply) (hv : known v) (hn : v.EachIdent (·.number < n)) :
    Coherent v.Within n := by
  refine h.restrict ?_ (fun _ => .inl) ?_ ?_
  · rintro u (hu | hu)
    · exact h.scalar u hu
    · exact h.known_of_contains hv hu
  · rintro u (hu | hu) t ht
    · exact .inl ((Coherent.nothing n).part u hu t ht)
    · exact .inr (hu.part ht)
  · rintro u i (hu | hu) hi
    · cases hu.symm.trans hi
    · exact hn u i hu hi

/-- Wherever a query starts to draw identities, as long as that is above all those in the root, it
finds as much, and the same, except for the identities of the maps that it makes itself. -/
theorem Query.find_agree (q : Query) {w : Workshop} {root : Message} (hw : w.Reached)
    (hr : .message root ∈ w.values) {m n : Nat}
    (hm : (Value.message root).EachIdent (·.number < m))
    (hn : (Value.message root).EachIdent (·.number < n)) :
    List.Forall₂ (Value.Agree m n) ((q.find root).run m).1.values
      ((q.find root).run n).1.values := by
  obtain ⟨known, hk⟩ := hw.holds
  have hcm := hk.coherent.within (hk.values _ hr) hm
  have hcn := hk.coherent.within (hk.values _ hr) hn
  have hself : Value.Filled (Value.message root).Own (.message root) (.message root) :=
    ((hw.throughout (Value.lasting_filled _)).values _ hr).self fun u i hu hi => ⟨rfl, u, hu, hi⟩
  obtain ⟨σ, hσ, hpairing, hfound⟩ := q.find_filled hself m n (Value.pairing_own hm hn)
  have hset : Settled σ (Value.message root).Within := by
    refine ⟨hpairing.unique, fun v i hv hi => ?_⟩
    rcases hv with hv | hv
    · cases hv.symm.trans hi
    · exact hσ ⟨rfl, v, hv, hi⟩
  have hfirst := q.found_of_mem_find hcm.sources (.inr .self) m
  have hsecond := q.found_of_mem_find hcn.sources (.inr .self) n
  exact forall₂_imp_of_mem hfound fun v hmem w hmem' hf =>
    hset.agree_of_filled hcm hcn (hfirst v hmem) (hsecond w hmem') hf

theorem Workshop.Reached.eachIdent_lt {w : Workshop} (h : w.Reached) {v : Value}
    (hv : v ∈ w.values) : v.EachIdent (·.number < w.supply) := by
  obtain ⟨known, hk⟩ := h.holds
  intro u i hu hi
  exact hk.coherent.below u i (hk.coherent.known_of_contains (hk.values v hv) hu) hi

/-- A query that a program runs finds what would be found if no identity ever came again, as long as
its counter does not come round to an identity in the root. -/
theorem Query.findAll_eq_find (q : Query) {w : Workshop} {root : Message} (hw : w.Reached)
    (hr : .message root ∈ w.values) {low n : Nat}
    (hroot : (Value.message root).EachIdent fun i => low ≤ i.number ∧ i.number < n)
    (hn : ((q.findAll root).run n).2 ≤ low + 2 ^ 64) :
    (q.findAll root).run n = (q.find root).run n := by
  obtain ⟨known, hk⟩ := hw.holds
  have hc := hk.coherent.within (hk.values _ hr) fun u i hu hi => (hroot u i hu hi).2
  have hlow : low ≤ n := by
    have := hroot _ root.ident .self rfl
    omega
  refine q.run_findAll hc.sources (fun v hv i hi => ?_) hlow (.inr .self) hn
  rcases hv with hv | hv
  · cases hv.symm.trans hi
  · exact hroot v i hv hi

/-- Wherever the counter stands when a query is run, above all identities in the root, a program
finds as much, and the same, except for the identities of the maps that the query makes itself. The
counter must not come round to an identity in the root before the run is over. -/
theorem Query.findAll_agree (q : Query) {w : Workshop} {root : Message} (hw : w.Reached)
    (hr : .message root ∈ w.values) {low m n : Nat}
    (hm : (Value.message root).EachIdent fun i => low ≤ i.number ∧ i.number < m)
    (hn : (Value.message root).EachIdent fun i => low ≤ i.number ∧ i.number < n)
    (hm' : ((q.findAll root).run m).2 ≤ low + 2 ^ 64)
    (hn' : ((q.findAll root).run n).2 ≤ low + 2 ^ 64) :
    List.Forall₂ (Value.Agree m n) ((q.findAll root).run m).1.values
      ((q.findAll root).run n).1.values := by
  rw [q.findAll_eq_find hw hr hm hm', q.findAll_eq_find hw hr hn hn']
  exact q.find_agree hw hr (fun u i hu hi => (hm u i hu hi).2) fun u i hu hi => (hn u i hu hi).2

namespace Ballot

def votes : Field := ⟨"votes", 0, .enum ⟨"Answer", [("NO", 0), ("YES", 1)]⟩, .map .string⟩

def ballotType : MessageType where
  name := "Ballot"
  fields := [votes]
  index_eq := by decide
  nodup := by decide

def answers : MapValue := ⟨⟨0⟩, .string, [(.string "ann", .int 1)]⟩

def ballot : Message := ⟨⟨1⟩, ballotType, [some (.map answers)]⟩

def workshop : Workshop where
  values := [.message ballot, .map answers, .int 1]
  builders := [⟨ballotType, ballot.slots, none⟩, ⟨ballotType, [none], none⟩]
  supply := 2

theorem workshop_reached : workshop.Reached := by
  have h0 := (Workshop.Reached.opened 0).step (.scalar (.int 1) rfl)
  have h1 := h0.step (.map .string [(.string "ann", .int 1)]
    (List.forall_mem_singleton.2 (.head _)) rfl)
  have h2 := h1.step (.start ballotType)
  have h3 := h2.step (.set "votes" (.head _) (.head _) rfl)
  exact h3.step (.build (.head _) rfl)

def query : Query := ⟨[⟨[.root, .field "votes"]⟩]⟩

end Ballot

/-- The answers of a ballot by name, in a new map each time, also in the last one that is drawn
before the counter begins again. -/
theorem Query.findAll_agree_ballot :
    Ballot.workshop.Reached ∧ .message Ballot.ballot ∈ Ballot.workshop.values ∧
      (Value.message Ballot.ballot).EachIdent (fun i => 0 ≤ i.number ∧ i.number < 2) ∧
      ((Ballot.query.findAll Ballot.ballot).run 2).2 = 3 ∧
      ((Ballot.query.findAll Ballot.ballot).run (2 ^ 64 - 1)).2 = 2 ^ 64 ∧
      List.Forall₂ (Value.Agree 2 (2 ^ 64 - 1))
        ((Ballot.query.findAll Ballot.ballot).run 2).1.values
        ((Ballot.query.findAll Ballot.ballot).run (2 ^ 64 - 1)).1.values := by
  have hw := Ballot.workshop_reached
  have hr : .message Ballot.ballot ∈ Ballot.workshop.values := .head _
  have hm : (Value.message Ballot.ballot).EachIdent fun i => 0 ≤ i.number ∧ i.number < 2 :=
    fun u i hu hi => ⟨Nat.zero_le _, hw.eachIdent_lt hr u i hu hi⟩
  have hn : (Value.message Ballot.ballot).EachIdent fun i => 0 ≤ i.number ∧ i.number < 2 ^ 64 - 1 :=
    fun u i hu hi => ⟨Nat.zero_le _, Nat.lt_trans (hm u i hu hi).2 (by decide)⟩
  have hsupply (n k : Nat) (h : (Search.within [.root, .field "votes"] 4
      (.start Ballot.ballot n Pending.shownKey?) Pending.shownKey?).map (·.2) = some k) :
      ((Ballot.query.findAll Ballot.ballot).run n).2 = k := by
    rw [findAll, Ballot.query, supply_find_singleton]
    exact Search.eq_of_map_within h
  have hfirst := hsupply 2 3 (by decide +kernel)
  have hlast := hsupply (2 ^ 64 - 1) (2 ^ 64) (by decide +kernel)
  exact ⟨hw, hr, hm, hfirst, hlast, Query.findAll_agree Ballot.query hw hr hm hn
    (by rw [hfirst]; decide) (by rw [hlast]; decide)⟩

namespace Poll

def answer : EnumType := ⟨"Answer", [("NO", 0), ("YES", 1)]⟩

def voterType : MessageType where
  name := "Voter"
  fields := [⟨"ward", 0, .int, .single⟩]
  index_eq := by decide
  nodup := by decide

def pollType : MessageType where
  name := "Poll"
  fields :=
    [⟨"voter", 0, .message "Voter", .single⟩, ⟨"first", 1, .enum answer, .repeated⟩,
      ⟨"second", 2, .enum answer, .repeated⟩, ⟨"third", 3, .enum answer, .repeated⟩]
  index_eq := by decide
  nodup := by decide

def voter : Message := ⟨⟨1⟩, voterType, [none]⟩

def answers (i : Nat) : Value := .list ⟨⟨i⟩, [.int 1]⟩

def poll : Message :=
  ⟨⟨5⟩, pollType, [some (.message voter), some (answers 2), some (answers 3), some (answers 4)]⟩

def workshop : Workshop where
  values := [.message poll, answers 4, answers 3, answers 2, .message voter, .int 1]
  builders :=
    [⟨pollType, poll.slots, none⟩,
      ⟨pollType, [some (.message voter), some (answers 2), some (answers 3), none], none⟩,
      ⟨pollType, [some (.message voter), some (answers 2), none, none], none⟩,
      ⟨pollType, [some (.message voter), none, none, none], none⟩, .start pollType]
  supply := 6

theorem workshop_reached : workshop.Reached := by
  have h0 := (Workshop.Reached.opened 1).step (.scalar (.int 1) rfl)
  have h1 := h0.step (.empty voterType rfl)
  have h2 := h1.step (.list [.int 1] (List.forall_mem_singleton.2 (.tail _ (.head _))) rfl)
  have h3 := h2.step
    (.list [.int 1] (List.forall_mem_singleton.2 (.tail _ (.tail _ (.head _)))) rfl)
  have h4 := h3.step
    (.list [.int 1] (List.forall_mem_singleton.2 (.tail _ (.tail _ (.tail _ (.head _))))) rfl)
  have h5 := h4.step (.start pollType)
  have h6 := h5.step (.set "voter" (.head _) (.tail _ (.tail _ (.tail _ (.head _)))) rfl)
  have h7 := h6.step (.set "first" (.head _) (.tail _ (.tail _ (.head _))) rfl)
  have h8 := h7.step (.set "second" (.head _) (.tail _ (.head _)) rfl)
  have h9 := h8.step (.set "third" (.head _) (.head _) rfl)
  exact h9.step (.build (.head _) rfl)

def query : Query := ⟨[⟨[.root, .field "*"]⟩]⟩

end Poll

/-- A counter that stands at its end comes round to the identity of the voter with the third of the
lists of names, which is lost. -/
theorem Query.findAll_disagree :
    Poll.workshop.Reached ∧ .message Poll.poll ∈ Poll.workshop.values ∧
      (Value.message Poll.poll).EachIdent (·.number < 6) ∧
      ((Poll.query.findAll Poll.poll).run 6).1.values.length = 4 ∧
      ((Poll.query.findAll Poll.poll).run (2 ^ 64 - 1)).1.values.length = 3 := by
  have hw := Poll.workshop_reached
  have hr : .message Poll.poll ∈ Poll.workshop.values := .head _
  have hfound (n k : Nat) (h : (Search.within [.root, .field "*"] 8
      (.start Poll.poll n Pending.shownKey?) Pending.shownKey?).map (·.1.values.length) = some k) :
      ((Poll.query.findAll Poll.poll).run n).1.values.length = k := by
    rw [findAll, Poll.query, values_find_singleton]
    exact Search.eq_of_map_within h
  exact ⟨hw, hr, hw.eachIdent_lt hr, hfound _ _ (by decide +kernel), hfound _ _ (by decide +kernel)⟩

end RecordPath
