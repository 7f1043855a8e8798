import Mathlib.Data.List.TakeWhile
import RecordPath.Proofs.Query.Continuation
import RecordPath.Query.Cursor

namespace RecordPath

inductive Item where
  | slash
  | descend
  | field (name : String)
  | self
  | key (expr : Expr)

namespace Item

/-- A slash is a step only where it comes first in its branch. -/
def steps (first : Bool) : Item → List Step
  | slash => if first then [.root] else []
  | descend => [.descend]
  | field name => [.field name]
  | self => [.self]
  | key e => [.key e]

/-- The steps of items in a row, where `first` tells whether the branch begins with them. -/
def stepsOf (first : Bool) : List Item → List Step
  | [] => []
  | i :: items => i.steps first ++ stepsOf false items

def path (items : List Item) : Path := ⟨stepsOf true items⟩

/-- The tokens are a spelling of the item. Those between two brackets are read as an expression by
themselves, and it takes all of them. -/
inductive Spells : Item → List Located → Prop
  | slash {t : Located} (ht : t.token = .symbol .slash) : Spells slash [t]
  | descend {t : Located} (ht : t.token = .symbol .doubleSlash) : Spells descend [t]
  | name {t : Located} {name : String} (ht : t.token = .name name) : Spells (field name) [t]
  | star {t : Located} (ht : t.token = .symbol .star) : Spells (field "*") [t]
  | dot {t : Located} (ht : t.token = .symbol .dot) : Spells self [t]
  | key {left right : Located} {inner : List Located} {e : Expr}
      (hleft : left.token = .symbol .leftBracket) (hright : right.token = .symbol .rightBracket)
      (hinner : ∀ t ∈ inner, t.token ≠ .endOfInput)
      (hread : ((Cursor.ofTokens inner).expression .lowest).1 = .ok e)
      (hall : ((Cursor.ofTokens inner).expression .lowest).2.rest = []) :
      Spells (key e) (left :: inner ++ [right])

inductive SpellAll : List Item → List Located → Prop
  | nil : SpellAll [] []
  | cons {i : Item} {items : List Item} {us vs : List Located} (hi : i.Spells us)
      (hitems : SpellAll items vs) : SpellAll (i :: items) (us ++ vs)

inductive SpellBranches : List (List Item) → List Located → Prop
  | last {items : List Item} {us : List Located} (h : SpellAll items us) (hne : items ≠ []) :
      SpellBranches [items] us
  | cons {items : List Item} {branches : List (List Item)} {us vs : List Located} {bar : Located}
      (h : SpellAll items us) (hne : items ≠ []) (hbar : bar.token = .symbol .bar)
      (hrest : SpellBranches branches vs) : SpellBranches (items :: branches) (us ++ bar :: vs)

theorem spells_field {t : Located} {name : String} (ht : t.token = .ofFieldName name) :
    (field name).Spells [t] := by
  by_cases hstar : name = "*"
  · rw [Token.ofFieldName, if_pos hstar] at ht
    rw [hstar]
    exact .star ht
  · rw [Token.ofFieldName, if_neg hstar] at ht
    exact .name ht

theorem Spells.length_pos {i : Item} {us : List Located} (h : i.Spells us) : 0 < us.length := by
  cases h <;> simp

theorem stepsOf_true_ne_nil {items : List Item} (h : items ≠ []) : stepsOf true items ≠ [] := by
  cases items with
  | nil => exact absurd rfl h
  | cons i items => cases i <;> simp [stepsOf, steps]

end Item

namespace Cursor

theorem rest_ofTokens {tokens : List Located} (h : ∀ t ∈ tokens, t.token ≠ .endOfInput) :
    (ofTokens tokens).rest = tokens := by
  change tokens.takeWhile _ = tokens
  rw [List.takeWhile_eq_self_iff]
  simpa using h

theorem ne_endOfInput_of_mem_rest {tokens : List Located} {t : Located}
    (h : t ∈ (ofTokens tokens).rest) : t.token ≠ .endOfInput := by
  simpa using List.mem_takeWhile_imp h

end Cursor

namespace Grammar

open Item

variable {stop : Nat} {first : Bool} {tokens us vs ws : List Located} {ss : List Step}

theorem steps_of_spells_one {i : Item} {t : Located} (h : i.Spells [t]) :
    steps stop first (t :: vs) =
      ((steps stop false vs).map (i.steps first ++ ·)).after t := by
  generalize htokens : [t] = us at h
  cases h with
  | key => simp at htokens
  | slash ht =>
    cases htokens
    rw [steps]
    simp only [ht, Item.steps]
    cases first <;> rfl
  | descend ht | name ht | star ht | dot ht =>
    cases htokens
    rw [steps]
    simp only [ht]
    rfl

theorem expression_of_spells {e : Expr} {inner : List Located} {right : Located} (stop : Nat)
    (hright : right.token = .symbol .rightBracket) (hinner : ∀ t ∈ inner, t.token ≠ .endOfInput)
    (hread : ((Cursor.ofTokens inner).expression .lowest).1 = .ok e)
    (hall : ((Cursor.ofTokens inner).expression .lowest).2.rest = []) (vs : List Located) :
    (expression stop .lowest (inner ++ right :: vs)).Yields e (right :: vs) := by
  have hrest := Cursor.rest_ofTokens hinner
  have h : (expression (Cursor.ofTokens inner).stop .lowest
      ((Cursor.ofTokens inner).rest)).Yields e [] := ⟨hread, hall⟩
  rw [hrest, ← List.append_nil inner] at h
  refine replace_expression stop ?_ h
  rintro t ws ⟨⟩
  right
  rw [hright]
  rfl

theorem yields_steps_key {e : Expr} {left right : Located}
    (hleft : left.token = .symbol .leftBracket) (hright : right.token = .symbol .rightBracket)
    (h : (expression stop .lowest tokens).Yields e (right :: vs)) :
    (steps stop first (left :: tokens)).Yields ss ws ↔
      ∃ rest, (steps stop false vs).Yields rest ws ∧ .key e :: rest = ss := by
  rw [steps]
  simp only [hleft]
  constructor
  · intro hsteps
    obtain ⟨e', us, hs, he', hclose⟩ := hsteps.of_after.of_bind
    obtain ⟨rfl, rfl⟩ := h.unique he'
    obtain ⟨_, us, hs, hclosing, hmap⟩ := hclose.of_bind
    obtain ⟨-, rfl⟩ := (yields_closing .missingBracket hright).unique hclosing
    exact hmap.of_map
  · rintro ⟨rest, hrest, rfl⟩
    apply Reading.Yields.after
    apply h.bind
    intro _
    apply (yields_closing .missingBracket hright).bind
    intro _
    exact hrest.map (Step.key e :: ·)

/-- Behind the tokens of an item, the steps are those of the item and those of what follows. -/
theorem yields_steps_append {i : Item} (h : i.Spells us) :
    (steps stop first (us ++ vs)).Yields ss ws ↔
      ∃ rest, (steps stop false vs).Yields rest ws ∧ i.steps first ++ rest = ss := by
  have hone (t : Located) (h : i.Spells [t]) :
      (steps stop first ([t] ++ vs)).Yields ss ws ↔
        ∃ rest, (steps stop false vs).Yields rest ws ∧ i.steps first ++ rest = ss := by
    rw [List.singleton_append, steps_of_spells_one h]
    exact Reading.yields_map_iff
  cases h with
  | slash ht => exact hone _ (.slash ht)
  | descend ht => exact hone _ (.descend ht)
  | name ht => exact hone _ (.name ht)
  | star ht => exact hone _ (.star ht)
  | dot ht => exact hone _ (.dot ht)
  | key hleft hright hinner hread hall =>
    rw [List.cons_append, List.cons_append, List.append_assoc]
    exact yields_steps_key hleft hright (expression_of_spells stop hright hinner hread hall vs)

theorem yields_steps_spellAll {items : List Item} (h : SpellAll items us) :
    (steps stop first (us ++ vs)).Yields ss ws ↔
      ∃ rest, (steps stop (first && items.isEmpty) vs).Yields rest ws ∧
        stepsOf first items ++ rest = ss := by
  induction h generalizing first ss with
  | nil => simp [stepsOf]
  | cons hi hitems ih =>
    rw [List.append_assoc, yields_steps_append hi]
    simp only [ih, Bool.false_and, List.isEmpty_cons, Bool.and_false, stepsOf, List.append_assoc]
    constructor
    · rintro ⟨_, ⟨rest, hrest, rfl⟩, rfl⟩
      exact ⟨rest, hrest, rfl⟩
    · rintro ⟨rest, hrest, rfl⟩
      exact ⟨_, ⟨rest, hrest, rfl⟩, rfl⟩

/-- Where the tokens are at their end, or a bar stands in front, a branch is over. -/
def Over (tokens : List Located) : Prop :=
  tokens = [] ∨ ∃ bar us, tokens = bar :: us ∧ bar.token = .symbol .bar

theorem yields_steps_over (h : Over us) : (steps stop first us).Yields [] us := by
  obtain rfl | ⟨bar, ws, rfl, hbar⟩ := h
  · rw [steps]
    exact Reading.yields_done [] []
  · rw [steps]
    simp only [hbar]
    exact Reading.yields_done [] (bar :: ws)

theorem over_or_spells (h : (steps stop first tokens).Yields ss us)
    (hin : ∀ t ∈ tokens, t.token ≠ .endOfInput) :
    Over tokens ∨ ∃ i xs vs, Item.Spells i xs ∧ tokens = xs ++ vs := by
  cases tokens with
  | nil => exact .inl (.inl rfl)
  | cons t rest =>
    have hone (i : Item) (hi : i.Spells [t]) :
        Over (t :: rest) ∨ ∃ i xs vs, Item.Spells i xs ∧ t :: rest = xs ++ vs :=
      .inr ⟨i, [t], rest, hi, rfl⟩
    rw [steps] at h
    cases ht : t.token with
    | name name => exact hone _ (.name ht)
    | symbol s =>
      cases s <;> simp only [ht] at h
      case bar => exact .inl (.inr ⟨t, rest, rfl, ht⟩)
      case slash => exact hone _ (.slash ht)
      case doubleSlash => exact hone _ (.descend ht)
      case star => exact hone _ (.star ht)
      case dot => exact hone _ (.dot ht)
      case leftBracket =>
        obtain ⟨e, ws, hs, he, hclose⟩ := h.of_after.of_bind
        obtain ⟨_, vs, hvs, hclosing, -⟩ := hclose.of_bind
        obtain ⟨right, rfl, hright⟩ := of_yields_closing hclosing
        obtain ⟨inner, rfl⟩ := hs
        have hinner : ∀ t ∈ inner, t.token ≠ .endOfInput := fun u hu =>
          hin u (List.mem_cons_of_mem t (List.mem_append_left _ hu))
        have he' : (expression (Cursor.ofTokens inner).stop .lowest (inner ++ [])).Yields e [] :=
          replace_expression _ (mayReplace_nil _) he
        rw [List.append_nil] at he'
        obtain ⟨hread, hall⟩ := he'
        refine .inr ⟨.key e, t :: inner ++ [right], vs, ?_, ?_⟩
        · refine .key ht hright hinner ?_ ?_
          · rw [← hread, Cursor.expression, Cursor.rest_ofTokens hinner]
          · rw [← hall, Cursor.expression, Cursor.rest_ofTokens hinner]
        · simp
      all_goals cases h.1
    | _ =>
      simp only [ht] at h
      cases h.1

theorem exists_items_of_yields {first : Bool} {tokens us : List Located} {ss : List Step}
    (h : (steps stop first tokens).Yields ss us)
    (hin : ∀ t ∈ tokens, t.token ≠ .endOfInput) :
    ∃ items vs, SpellAll items vs ∧ tokens = vs ++ us ∧ stepsOf first items = ss ∧ Over us := by
  obtain hover | ⟨i, xs, rest, hi, rfl⟩ := over_or_spells h hin
  · obtain ⟨rfl, rfl⟩ := (yields_steps_over hover).unique h
    exact ⟨[], [], .nil, rfl, rfl, hover⟩
  · obtain ⟨ss, hss, rfl⟩ := (yields_steps_append hi).1 h
    have hlength : (xs ++ rest).length = xs.length + rest.length := List.length_append
    have := hi.length_pos
    obtain ⟨items, vs, hitems, rfl, rfl, hover⟩ :=
      exists_items_of_yields hss fun t ht => hin t (List.mem_append_right xs ht)
    exact ⟨i :: items, xs ++ vs, .cons hi hitems, (List.append_assoc _ _ _).symm, rfl, hover⟩
termination_by tokens.length

theorem yields_branch_iff {p : Path} :
    (branch stop tokens).Yields p us ↔
      p.steps ≠ [] ∧ (steps stop true tokens).Yields p.steps us := by
  constructor
  · intro h
    obtain ⟨ss, ws, hs, hsteps, h⟩ := h.of_bind
    cases ss with
    | nil => cases h.1
    | cons s ss =>
      obtain ⟨rfl, rfl⟩ := h.of_done
      exact ⟨List.cons_ne_nil s ss, hsteps⟩
  · obtain ⟨ss⟩ := p
    rintro ⟨hne, h⟩
    apply h.bind
    intro _
    cases ss with
    | nil => exact absurd rfl hne
    | cons s ss => exact Reading.yields_done _ us

theorem yields_branches_iff {ps : List Path} :
    (branches stop tokens).Yields ps ws ↔
      ∃ p us, (branch stop tokens).Yields p us ∧ ((us = [] ∧ ws = [] ∧ ps = [p]) ∨
        ∃ bar vs qs, us = bar :: vs ∧ bar.token = .symbol .bar ∧
          (branches stop vs).Yields qs ws ∧ ps = p :: qs) := by
  rw [branches]
  constructor
  · intro h
    obtain ⟨p, us, hs, hp, h⟩ := h.of_bind
    refine ⟨p, us, hp, ?_⟩
    cases us with
    | nil =>
      obtain ⟨rfl, rfl⟩ := h.of_done
      exact .inl ⟨rfl, rfl, rfl⟩
    | cons bar vs =>
      dsimp only at h
      split at h
      · obtain ⟨qs, hqs, rfl⟩ := h.of_after.of_map
        exact .inr ⟨bar, vs, qs, rfl, ‹_›, hqs, rfl⟩
      · cases h.1
  · rintro ⟨p, us, hp, ⟨rfl, rfl, rfl⟩ | ⟨bar, vs, qs, rfl, hbar, hqs, rfl⟩⟩
    · exact hp.bind fun _ => Reading.yields_done [p] []
    · apply hp.bind
      intro _
      simp only [hbar, if_true]
      exact (hqs.map (p :: ·)).after bar

theorem spellBranches_of_yields {tokens : List Located} {ps : List Path}
    (h : (branches stop tokens).Yields ps ws) (hin : ∀ t ∈ tokens, t.token ≠ .endOfInput) :
    ∃ bs, SpellBranches bs tokens ∧ bs.map path = ps := by
  obtain ⟨⟨ss⟩, us, hp, h⟩ := yields_branches_iff.1 h
  obtain ⟨hne, hsteps⟩ := yields_branch_iff.1 hp
  obtain ⟨items, xs, hitems, rfl, rfl, -⟩ := exists_items_of_yields hsteps hin
  have hitems_ne : items ≠ [] := by
    rintro rfl
    exact hne rfl
  obtain ⟨rfl, -, rfl⟩ | ⟨bar, vs, qs, rfl, hbar, hqs, rfl⟩ := h
  · rw [List.append_nil]
    exact ⟨[items], .last hitems hitems_ne, rfl⟩
  · have hlength : (xs ++ bar :: vs).length = xs.length + (vs.length + 1) := List.length_append
    obtain ⟨bs, hbs, rfl⟩ := spellBranches_of_yields hqs fun t ht =>
      hin t (List.mem_append_right xs (List.mem_cons_of_mem bar ht))
    exact ⟨items :: bs, .cons hitems hitems_ne hbar hbs, rfl⟩
termination_by tokens.length

/-- Items in a row make a branch, if the branch is over behind them. -/
theorem yields_branch_of_spellAll {items : List Item} (h : SpellAll items us) (hne : items ≠ [])
    (hover : Over vs) : (branch stop (us ++ vs)).Yields (path items) vs := by
  refine yields_branch_iff.2 ⟨stepsOf_true_ne_nil hne, ?_⟩
  exact (yields_steps_spellAll h).2 ⟨[], yields_steps_over hover, List.append_nil _⟩

theorem yields_branches_bar_iff {items : List Item} {bar : Located} {ps : List Path}
    (h : SpellAll items us) (hne : items ≠ []) (hbar : bar.token = .symbol .bar) :
    (branches stop (us ++ bar :: vs)).Yields ps ws ↔
      ∃ qs, (branches stop vs).Yields qs ws ∧ ps = path items :: qs := by
  have hbranch : (branch stop (us ++ bar :: vs)).Yields (path items) (bar :: vs) :=
    yields_branch_of_spellAll h hne (.inr ⟨bar, vs, rfl, hbar⟩)
  rw [yields_branches_iff]
  constructor
  · rintro ⟨p, ws, hp, h⟩
    obtain ⟨rfl, rfl⟩ := hbranch.unique hp
    obtain ⟨hnil, -⟩ | ⟨_, _, qs, hws, -, hqs, hps⟩ := h
    · cases hnil
    · cases hws
      exact ⟨qs, hqs, hps⟩
  · rintro ⟨qs, hqs, hps⟩
    exact ⟨path items, bar :: vs, hbranch, .inr ⟨bar, vs, qs, rfl, hbar, hqs, hps⟩⟩

theorem yields_of_spellBranches {bs : List (List Item)} (h : SpellBranches bs tokens) :
    (branches stop tokens).Yields (bs.map path) [] := by
  induction h with
  | @last items us h hne =>
    have hbranch : (branch stop (us ++ [])).Yields (path items) [] :=
      yields_branch_of_spellAll h hne (.inl rfl)
    rw [List.append_nil] at hbranch
    exact yields_branches_iff.2 ⟨path items, [], hbranch, .inl ⟨rfl, rfl, rfl⟩⟩
  | cons h hne hbar hrest ih => exact (yields_branches_bar_iff h hne hbar).2 ⟨_, ih, rfl⟩

/-- What is read as branches does not depend on where the text ends. -/
theorem branches_eq_ok_iff {ps : List Path} (hin : ∀ t ∈ tokens, t.token ≠ .endOfInput) :
    (branches stop tokens).result = .ok ps ↔
      ∃ bs, SpellBranches bs tokens ∧ bs.map path = ps := by
  refine ⟨fun h => spellBranches_of_yields ⟨h, rfl⟩ hin, ?_⟩
  rintro ⟨bs, hbs, rfl⟩
  exact (yields_of_spellBranches hbs).1

/-- Slashes that do not come first in their branch are no steps. -/
theorem yields_steps_slashes {slashes : List Located}
    (h : ∀ t ∈ slashes, t.token = .symbol .slash) :
    (steps stop false (slashes ++ us)).Yields ss vs ↔ (steps stop false us).Yields ss vs := by
  induction slashes with
  | nil => rfl
  | cons t slashes ih =>
    rw [List.forall_mem_cons] at h
    rw [List.cons_append, ← List.singleton_append, yields_steps_append (.slash h.1)]
    simp [Item.steps, ih h.2]

/-- What stands behind whole items matters only through the steps that are read from it. -/
theorem yields_branches_append_congr {bs : List (List Item)} {front : List Located} {ps : List Path}
    (h : SpellBranches bs front)
    (hsteps : ∀ ss ws, (steps stop false us).Yields ss ws ↔ (steps stop false vs).Yields ss ws) :
    (branches stop (front ++ us)).Yields ps ws ↔ (branches stop (front ++ vs)).Yields ps ws := by
  induction h generalizing ps with
  | @last items xs h hne =>
    have hbranch (p : Path) (ws : List Located) :
        (branch stop (xs ++ us)).Yields p ws ↔ (branch stop (xs ++ vs)).Yields p ws := by
      simp only [yields_branch_iff, yields_steps_spellAll h, Bool.true_and,
        List.isEmpty_eq_false_iff.2 hne, hsteps]
    rw [yields_branches_iff, yields_branches_iff]
    simp only [hbranch]
  | @cons items bs xs ys bar h hne hbar hrest ih =>
    rw [List.append_assoc, List.append_assoc, List.cons_append, List.cons_append,
      yields_branches_bar_iff h hne hbar, yields_branches_bar_iff h hne hbar]
    simp only [ih]

end Grammar

namespace Cursor

open Item

variable {tokens : List Located} {q : Query}

theorem ne_endOfInput_of_spells {i : Item} (h : i.Spells tokens) :
    ∀ t ∈ tokens, t.token ≠ .endOfInput := by
  cases h with
  | key hleft hright hinner =>
    simp only [List.cons_append, List.forall_mem_cons, List.forall_mem_append]
    refine ⟨by simp [hleft], hinner, by simp [hright]⟩
  | slash ht | descend ht | name ht | star ht | dot ht => simp [ht]

theorem ne_endOfInput_of_spellBranches {bs : List (List Item)} (h : SpellBranches bs tokens) :
    ∀ t ∈ tokens, t.token ≠ .endOfInput := by
  have hall {items : List Item} {us : List Located} (h : SpellAll items us) :
      ∀ t ∈ us, t.token ≠ .endOfInput := by
    induction h with
    | nil => exact nofun
    | cons hi hitems ih => exact List.forall_mem_append.2 ⟨ne_endOfInput_of_spells hi, ih⟩
  induction h with
  | last h => exact hall h
  | cons h hne hbar hrest ih =>
    refine List.forall_mem_append.2 ⟨hall h, List.forall_mem_cons.2 ⟨?_, ih⟩⟩
    rw [hbar]
    exact nofun

theorem map_mk_eq_ok_iff {r : Except CompileError (List Path)} :
    r.map Query.mk = .ok q ↔ r = .ok q.branches := by
  obtain ⟨ps⟩ := q
  cases r <;> simp [Except.map]

theorem query_eq_ok_iff_spellBranches :
    (ofTokens tokens).query.1 = .ok q ↔
      ∃ bs, SpellBranches bs (ofTokens tokens).rest ∧ bs.map path = q.branches :=
  map_mk_eq_ok_iff.trans (Grammar.branches_eq_ok_iff fun _ => ne_endOfInput_of_mem_rest)

theorem query_eq_ok_iff_yields (stop : Nat) :
    (ofTokens tokens).query.1 = .ok q ↔
      (Grammar.branches stop (ofTokens tokens).rest).Yields q.branches [] := by
  rw [query_eq_ok_iff_spellBranches]
  refine ⟨?_, fun h => Grammar.spellBranches_of_yields h fun _ => ne_endOfInput_of_mem_rest⟩
  rintro ⟨bs, hbs, hq⟩
  exact hq ▸ Grammar.yields_of_spellBranches hbs

/-- The tokens before the first end mark are read as a query just if they spell branches, and its
paths are those of the branches. A slash behind an item of a branch, outside brackets, changes
nothing. -/
theorem query_eq_ok_iff :
    (∀ (tokens : List Located) (q : Query), (ofTokens tokens).query.1 = .ok q ↔
      ∃ branches, SpellBranches branches (tokens.takeWhile (·.token ≠ .endOfInput)) ∧
        q = ⟨branches.map path⟩) ∧
    ∀ (front slashes back : List Located) (branches : List (List Item)),
      SpellBranches branches front → (∀ t ∈ slashes, t.token = .symbol .slash) →
      ∀ q : Query, (ofTokens (front ++ slashes ++ back)).query.1 = .ok q ↔
        (ofTokens (front ++ back)).query.1 = .ok q := by
  constructor
  · intro tokens q
    rw [query_eq_ok_iff_spellBranches]
    obtain ⟨ps⟩ := q
    simp only [ofTokens, Query.mk.injEq, eq_comm]
  · intro front slashes back branches hfront hslashes q
    have hin := ne_endOfInput_of_spellBranches hfront
    have hrest (ts : List Located) : (ofTokens (front ++ ts)).rest = front ++ (ofTokens ts).rest :=
      List.takeWhile_append_of_pos (by simpa using hin)
    have hrest' : (ofTokens (slashes ++ back)).rest = slashes ++ (ofTokens back).rest :=
      List.takeWhile_append_of_pos fun t ht => by simp [hslashes t ht]
    rw [query_eq_ok_iff_yields 0, query_eq_ok_iff_yields 0, List.append_assoc, hrest, hrest, hrest']
    exact Grammar.yields_branches_append_congr hfront fun _ _ =>
      Grammar.yields_steps_slashes hslashes

/-- Two names in a row, with a slash between them. -/
theorem query_eq_ok_two_names :
    (ofTokens [⟨.name "a", 0⟩, ⟨.symbol .slash, 1⟩, ⟨.name "b", 2⟩]).query.1 =
      .ok ⟨[⟨[.field "a", .field "b"]⟩]⟩ := by
  obtain ⟨haccepts, hslashes⟩ := query_eq_ok_iff
  have ha : SpellBranches [[.field "a"]] [⟨.name "a", 0⟩] := .last (.cons (.name rfl) .nil) nofun
  have hab : SpellBranches [[.field "a", .field "b"]] [⟨.name "a", 0⟩, ⟨.name "b", 2⟩] :=
    .last (.cons (.name rfl) (.cons (.name rfl) .nil)) nofun
  have hnames := (haccepts [⟨.name "a", 0⟩, ⟨.name "b", 2⟩] _).2 ⟨_, hab, rfl⟩
  exact (hslashes _ [⟨.symbol .slash, 1⟩] [⟨.name "b", 2⟩] _ ha (by simp) _).2 hnames

end Cursor

end RecordPath
