import RecordPath.Proofs.Query.Items
import RecordPath.Proofs.Query.Spelling

namespace RecordPath

namespace Grammar

variable {stop : Nat} {t : Located} {us vs tokens : List Located} {e l r : Expr}

theorem yields_expression_binary {op : BinaryOp}
    (hl : (operand stop tokens).Yields l (t :: us)) (ht : t.token = .symbol op.symbol)
    (hr : (operand stop us).Yields r vs) (hs : Stops .lowest vs) :
    (expression stop .lowest tokens).Yields (.binary op l r) vs := by
  have hop : BinaryOp.ofToken? t.token = some op := by
    rw [ht]
    exact BinaryOp.ofSymbol?_eq_some.2 rfl
  have hright : (expression stop op.tier us).Yields r vs :=
    yields_expression hr (hs.mono (Tier.lowest_le _))
  rw [expression_eq]
  apply hl.bind
  intro _
  rw [climb_of_lt hop (BinaryOp.not_tier_le_lowest op) (endsOperand_of_yields hr)]
  apply Reading.Yields.after
  apply hright.bind
  intro _
  rw [climb_of_stops _ hs]
  exact Reading.yields_done _ _

theorem yields_operand_property {name : String} {s : Located} (ht : t.token = .symbol .atSign)
    (hs : s.token = .ofFieldName name) :
    (operand stop (t :: s :: us)).Yields (.property name) us := by
  rw [operand]
  simp only [ht]
  apply Reading.Yields.after
  rw [property]
  by_cases hstar : name = "*"
  · rw [Token.ofFieldName, if_pos hstar] at hs
    simp only [hs, hstar]
    exact (Reading.yields_done _ us).after s
  · rw [Token.ofFieldName, if_neg hstar] at hs
    simp only [hs]
    exact (Reading.yields_done _ us).after s

theorem yields_operand_call {f : Builtin} {left close : Located} (ht : t.token = .name f.name)
    (hl : left.token = .symbol .leftParen) (hc : close.token = .symbol .rightParen) :
    (operand stop (t :: left :: close :: us)).Yields (.call f []) us := by
  have hname : Builtin.ofName? f.name = some f := by cases f <;> decide
  rw [operand]
  simp only [ht]
  apply Reading.Yields.after
  rw [named, if_pos hl, hname, arguments, if_pos hc]
  apply Reading.Yields.after
  apply (Reading.yields_done [] _).bind
  intro _
  exact (yields_closing .missingParen hc).bind fun _ => Reading.yields_done _ us

/-- An expression is read back from its tokens: as an operand whatever follows, and as a whole
expression where no operator follows. -/
structure Restores (stop : Nat) (e : Expr) : Prop where
  operand : ∀ ls us : List Located, ls.map Located.token = e.bracketed e.tokens →
    (operand stop (ls ++ us)).Yields e us
  expression : ∀ ls us : List Located, ls.map Located.token = e.tokens → Stops .lowest us →
    (expression stop .lowest (ls ++ us)).Yields e us

theorem restores_of_operand (hb : e.isBinary = false)
    (h : ∀ ls us : List Located, ls.map Located.token = e.tokens →
      (operand stop (ls ++ us)).Yields e us) : Restores stop e where
  operand := by
    rw [Expr.bracketed, hb]
    exact h
  expression ls us hls hs := yields_expression (h ls us hls) hs

theorem restores_binary {op : BinaryOp} (hl : Restores stop l) (hr : Restores stop r) :
    Restores stop (.binary op l r) := by
  have hexpr (ls us : List Located) (hls : ls.map Located.token = (Expr.binary op l r).tokens)
      (hs : Stops .lowest us) :
      (expression stop .lowest (ls ++ us)).Yields (.binary op l r) us := by
    obtain ⟨xs, ys, rfl, hxs, hys⟩ := List.map_eq_append_iff.1 hls
    obtain ⟨t, ys, rfl, ht, hys⟩ := List.map_eq_cons_iff.1 hys
    rw [List.append_assoc]
    exact yields_expression_binary (hl.operand xs _ hxs) ht (hr.operand ys us hys) hs
  constructor
  · -- as an operand it stands in parentheses, and the closing one ends the climbing
    intro ls us hls
    obtain ⟨t, ls, rfl, ht, hls⟩ := List.map_eq_cons_iff.1 hls
    obtain ⟨xs, ys, rfl, hxs, hys⟩ := List.map_eq_append_iff.1 hls
    obtain ⟨close, rfl, hc⟩ := List.map_eq_singleton_iff.1 hys
    have hstops : Stops .lowest (close :: us) := stops_of_none (by rw [hc]; rfl)
    rw [List.cons_append, List.append_assoc]
    exact yields_operand_parenthesized ht (hexpr xs (close :: us) hxs hstops) hc
  · exact hexpr

theorem restores (e : Expr) (hw : e.wellFormed = true) : Restores stop e := by
  induction e with
  | literal v =>
    apply restores_of_operand rfl
    intro ls us hls
    obtain ⟨t, rfl, ht⟩ := List.map_eq_singleton_iff.1 hls
    exact yields_operand_literal ht
  | property name =>
    apply restores_of_operand rfl
    intro ls us hls
    obtain ⟨t, ls, rfl, ht, hls⟩ := List.map_eq_cons_iff.1 hls
    obtain ⟨s, rfl, hs⟩ := List.map_eq_singleton_iff.1 hls
    exact yields_operand_property ht hs
  | call f arguments =>
    apply restores_of_operand rfl
    intro ls us hls
    obtain rfl : arguments = [] := List.isEmpty_iff.1 hw
    obtain ⟨t, ls, rfl, ht, hls⟩ := List.map_eq_cons_iff.1 hls
    obtain ⟨left, ls, rfl, hl, hls⟩ := List.map_eq_cons_iff.1 hls
    obtain ⟨close, rfl, hc⟩ := List.map_eq_singleton_iff.1 hls
    exact yields_operand_call ht hl hc
  | unary op e ih =>
    apply restores_of_operand rfl
    intro ls us hls
    obtain ⟨t, ls, rfl, ht, hls⟩ := List.map_eq_cons_iff.1 hls
    exact yields_operand_unary ht ((ih hw).operand ls us hls)
  | binary op l r ihl ihr =>
    simp only [Expr.wellFormed, Bool.and_eq_true] at hw
    exact restores_binary (ihl hw.1) (ihr hw.2)

theorem yields_steps_separated {ss : List Step} {previous : Option Step} {ls : List Located}
    (hls : ls.map Located.token = Step.slashAfter previous)
    (h : ∀ first, (steps stop first us).Yields ss vs) :
    (steps stop previous.isNone (ls ++ us)).Yields ss vs := by
  rcases previous with - | (- | _ | - | _ | -)
  case some.field | some.key | some.self =>
    obtain ⟨t, rfl, ht⟩ := List.map_eq_singleton_iff.1 hls
    exact (yields_steps_append (.slash ht)).2 ⟨ss, h false, rfl⟩
  all_goals
    obtain rfl := List.map_eq_nil_iff.1 hls
    exact h _

/-- The steps of a path are read back from their tokens, up to a bar or to the end. -/
theorem yields_steps_of_tokens {ss : List Step} (hw : ∀ s ∈ ss, s.wellFormed = true)
    {previous : Option Step} (hroot : .root ∈ ss → previous = none) (htail : .root ∉ ss.tail)
    (hus : Over us) {ls : List Located}
    (hls : ls.map Located.token = Path.tokensAfter previous ss) :
    (steps stop previous.isNone (ls ++ us)).Yields ss us := by
  induction ss generalizing previous ls with
  | nil =>
    obtain rfl := List.map_eq_nil_iff.1 hls
    exact yields_steps_over hus
  | cons s ss ih =>
    obtain ⟨xs, ys, rfl, hxs, hys⟩ := List.map_eq_append_iff.1 hls
    -- after its first step a path is read with nothing left to say about a root
    have hrest : (steps stop (some s).isNone (ys ++ us)).Yields ss us :=
      ih (fun s hs => hw s (.tail _ hs)) (fun h => absurd h htail)
        (fun h => htail (List.mem_of_mem_tail h)) hys
    rw [List.append_assoc]
    cases s with
    | root =>
      obtain rfl := hroot (.head _)
      obtain ⟨t, rfl, ht⟩ := List.map_eq_singleton_iff.1 hxs
      exact (yields_steps_append (.slash ht)).2 ⟨ss, hrest, rfl⟩
    | field name =>
      obtain ⟨xs, zs, rfl, hsep, hzs⟩ := List.map_eq_append_iff.1 hxs
      obtain ⟨t, rfl, ht⟩ := List.map_eq_singleton_iff.1 hzs
      rw [List.append_assoc]
      exact yields_steps_separated hsep fun _ =>
        (yields_steps_append (Item.spells_field ht)).2 ⟨ss, hrest, rfl⟩
    | descend =>
      obtain ⟨t, rfl, ht⟩ := List.map_eq_singleton_iff.1 hxs
      exact (yields_steps_append (.descend ht)).2 ⟨ss, hrest, rfl⟩
    | key e =>
      obtain ⟨t, xs, rfl, ht, hxs⟩ := List.map_eq_cons_iff.1 hxs
      obtain ⟨xs, zs, rfl, hinner, hzs⟩ := List.map_eq_append_iff.1 hxs
      obtain ⟨close, rfl, hc⟩ := List.map_eq_singleton_iff.1 hzs
      rw [List.cons_append, List.append_assoc]
      have he : (expression stop .lowest (xs ++ close :: (ys ++ us))).Yields e
          (close :: (ys ++ us)) :=
        (restores e (hw _ (.head _))).expression xs _ hinner (stops_of_none (by rw [hc]; rfl))
      exact (yields_steps_key ht hc he).2 ⟨ss, hrest, rfl⟩
    | self =>
      obtain ⟨xs, zs, rfl, hsep, hzs⟩ := List.map_eq_append_iff.1 hxs
      obtain ⟨t, rfl, ht⟩ := List.map_eq_singleton_iff.1 hzs
      rw [List.append_assoc]
      exact yields_steps_separated hsep fun _ => (yields_steps_append (.dot ht)).2 ⟨ss, hrest, rfl⟩

theorem yields_branch_of_tokens {p : Path} (hw : p.wellFormed = true)
    (hus : Over us) {ls : List Located}
    (hls : ls.map Located.token = p.tokens) : (branch stop (ls ++ us)).Yields p us := by
  obtain ⟨ss⟩ := p
  simp only [Path.wellFormed, Bool.and_eq_true, List.all_eq_true, Bool.not_eq_true',
    List.contains_eq_mem, decide_eq_false_iff_not] at hw
  have hne : ss ≠ [] := List.isEmpty_eq_false_iff.1 hw.1.1
  exact yields_branch_iff.2 ⟨hne, yields_steps_of_tokens hw.1.2 (fun _ => rfl) hw.2 hus hls⟩

theorem yields_branches_of_tokens {branches : List Path} (hne : branches ≠ [])
    (hw : ∀ p ∈ branches, p.wellFormed = true) {ls : List Located}
    (hls : ls.map Located.token = Query.tokensOf branches) :
    (Grammar.branches stop ls).Yields branches [] := by
  induction branches generalizing ls with
  | nil => exact absurd rfl hne
  | cons p rest ih =>
    have hp := hw p (.head _)
    cases rest with
    | nil =>
      have hbranch : (branch stop (ls ++ [])).Yields p [] :=
        yields_branch_of_tokens hp (.inl rfl) hls
      rw [List.append_nil] at hbranch
      exact yields_branches_iff.2 ⟨p, [], hbranch, .inl ⟨rfl, rfl, rfl⟩⟩
    | cons q rest =>
      obtain ⟨xs, ys, rfl, hxs, hys⟩ := List.map_eq_append_iff.1 hls
      obtain ⟨t, ys, rfl, ht, hys⟩ := List.map_eq_cons_iff.1 hys
      have hrest := ih (by simp) (fun r hr => hw r (.tail _ hr)) hys
      have hbranch : (branch stop (xs ++ t :: ys)).Yields p (t :: ys) :=
        yields_branch_of_tokens hp (.inr ⟨t, ys, rfl, ht⟩) hxs
      exact yields_branches_iff.2
        ⟨p, t :: ys, hbranch, .inr ⟨t, ys, q :: rest, rfl, ht, hrest, rfl⟩⟩

end Grammar

/-- The text of a well-formed query compiles to that query, if its doubles are read back. -/
theorem Query.compile_text {q : Query} (hw : q.wellFormed = true)
    (hf : ∀ x ∈ q.floats, ReadsBack x) : compile q.text = .ok q := by
  obtain ⟨ls, htokens, hls⟩ := tokenize_text hw hf
  simp only [wellFormed, Bool.and_eq_true, List.all_eq_true, Bool.not_eq_true',
    List.isEmpty_eq_false_iff] at hw
  have h : (Grammar.branches q.text.utf8ByteSize ls).Yields q.branches [] :=
    Grammar.yields_branches_of_tokens hw.1 hw.2 hls
  unfold compile Cursor.ofText
  rw [htokens]
  exact congrArg (Except.map Query.mk) h.1

/-- Steps of every kind, operators of both kinds, and a string that holds a quote. -/
theorem Query.compile_text_sample :
    let key : Expr := .binary (.compare .less)
      (.unary .minus (.binary (.compute .add) (.property "x") (.literal (.float 2.5))))
      (.call .length [])
    let q : Query := ⟨[⟨[.root, .descend, .field "a", .key key, .self, .field "*"]⟩,
      ⟨[.self, .self, .key (.literal (.string "it's"))]⟩]⟩
    q.wellFormed = true ∧ (∀ x ∈ q.floats, ReadsBack x) ∧ compile q.text = .ok q := by
  intro key q
  have hw : q.wellFormed = true := by decide
  have hf : ∀ x ∈ q.floats, ReadsBack x := by decide
  exact ⟨hw, hf, Query.compile_text hw hf⟩

end RecordPath
