import RecordPath.Proofs.Decimal.Nearest
import RecordPath.Proofs.Query.RoundTrip
import RecordPath.Proofs.Token.Places

namespace RecordPath

/-- What the lexer makes of a text: names that are no constants, numbers without a sign, and strings
without the quotes that stood around them. -/
def Token.Spelled : Token → Prop
  | .name s => isFieldName s = true
  | .int n => 0 ≤ n.toInt
  | .float x => x.isNaN = false ∧ (Decimal.parts x).negative = false
  | .string s => '\'' ∉ s.toList ∨ '\"' ∉ s.toList
  | _ => True

theorem Token.Spells.spelled {t : Token} {lexeme : List Char} (h : t.Spells lexeme) :
    t.Spelled := by
  cases h with
  | symbol s => trivial
  | bool b h => trivial
  | @name c cs hc hcs hname =>
    have hid : isIdentifier (c :: cs) = true := by
      rw [isIdentifier, hc, Bool.true_and, List.all_eq_true]
      exact hcs
    have htrue : (c :: cs).map Char.toLower ≠ ['t', 'r', 'u', 'e'] := hname true
    have hfalse : (c :: cs).map Char.toLower ≠ ['f', 'a', 'l', 's', 'e'] := hname false
    change isFieldName (String.ofList (c :: cs)) = true
    rw [isFieldName, String.toList_ofList, hid, decide_eq_true htrue, decide_eq_true hfalse]
    simp
  | @string quote content hq h =>
    change '\'' ∉ (String.ofList content).toList ∨ '\"' ∉ (String.ofList content).toList
    rw [String.toList_ofList]
    rw [isQuote, Bool.or_eq_true, beq_iff_eq, beq_iff_eq] at hq
    rcases hq with rfl | rfl
    · exact .inl h
    · exact .inr h
  | @int n digits hne hdigits hn =>
    change 0 ≤ n.toInt
    rw [hn]
    exact Int.natCast_nonneg _
  | float => exact ⟨Decimal.isNaN_ofScientific _ _, Decimal.negative_ofScientific _ _⟩

theorem spelled_of_tokenize {text : String} {ls : List Located} (h : tokenize text = .ok ls) :
    ∀ t ∈ ls, t.token.Spelled := by
  intro t ht
  cases Lexer.drains_ofString text with
  | tokens hls _ hstands =>
    cases hls.symm.trans h
    obtain ⟨lexeme, rest, -, hspells⟩ := hstands t ht
    exact hspells.spelled
  | fault he => cases he.symm.trans h

/-- An expression whose names and literals are tokens of a text, and whose calls have no
arguments. -/
inductive Expr.Spelled : Expr → Prop
  | literal {v : Scalar} (h : v.token.Spelled) : Spelled (.literal v)
  | property {name : String} (h : isFieldName name = true) : Spelled (.property name)
  | call (f : Builtin) : Spelled (.call f [])
  | unary (op : UnaryOp) {e : Expr} (h : Spelled e) : Spelled (.unary op e)
  | binary (op : BinaryOp) {l r : Expr} (hl : Spelled l) (hr : Spelled r) :
    Spelled (.binary op l r)

inductive Expr.OccursIn (d : Expr) : Expr → Prop
  | self : OccursIn d d
  | argument {f : Builtin} {arguments : List Expr} {e : Expr} (he : e ∈ arguments)
      (h : OccursIn d e) : OccursIn d (.call f arguments)
  | operand {op : UnaryOp} {e : Expr} (h : OccursIn d e) : OccursIn d (.unary op e)
  | left {op : BinaryOp} {l r : Expr} (h : OccursIn d l) : OccursIn d (.binary op l r)
  | right {op : BinaryOp} {l r : Expr} (h : OccursIn d r) : OccursIn d (.binary op l r)

theorem Expr.Spelled.of_occursIn {d e : Expr} (h : e.Spelled) (hd : d.OccursIn e) :
    d.Spelled := by
  induction hd with
  | self => exact h
  | argument he =>
    cases h
    cases he
  | operand _ ih =>
    cases h with
    | unary _ h => exact ih h
  | left _ ih =>
    cases h with
    | binary _ hl hr => exact ih hl
  | right _ ih =>
    cases h with
    | binary _ hl hr => exact ih hr

def Step.Spelled : Step → Prop
  | root | descend | self => True
  | field name => isFieldName name = true
  | key e => e.Spelled

structure Path.Spelled (p : Path) : Prop where
  steps_ne_nil : p.steps ≠ []
  steps : ∀ s ∈ p.steps, s.Spelled
  root_not_mem_tail : .root ∉ p.steps.tail

section WellFormed

/-- An expression that a text spells can be written down, if the doubles in it can. -/
theorem Expr.Spelled.wellFormed {e : Expr} (h : e.Spelled)
    (hfinite : ∀ x ∈ e.floats, Decimal.isFinite x = true) : e.wellFormed = true := by
  induction h with
  | @literal v h =>
    cases v with
    | bool b => rfl
    | string s =>
      simp only [Expr.wellFormed, Scalar.wellFormed, List.contains_eq_mem, Bool.not_and,
        Bool.or_eq_true, Bool.not_eq_true', decide_eq_false_iff_not]
      exact h
    | int n => exact decide_eq_true h
    | float x =>
      have hx := hfinite x (List.mem_singleton.2 rfl)
      have hsign : (Decimal.parts x).negative = false := h.2
      simp only [Expr.wellFormed, Scalar.wellFormed, hx, hsign, Bool.not_false, Bool.and_self]
  | property h => exact h
  | call f => rfl
  | unary op _ ih => exact ih hfinite
  | binary op _ _ ihl ihr =>
    rw [floats, List.forall_mem_append] at hfinite
    rw [Expr.wellFormed, ihl hfinite.1, ihr hfinite.2]
    rfl

theorem Step.Spelled.wellFormed {s : Step} (h : s.Spelled)
    (hfinite : ∀ x ∈ s.floats, Decimal.isFinite x = true) : s.wellFormed = true := by
  cases s with
  | root | descend | self => rfl
  | field name => exact h
  | key e => exact Expr.Spelled.wellFormed h hfinite

theorem Path.Spelled.wellFormed {p : Path} (h : p.Spelled)
    (hfinite : ∀ s ∈ p.steps, ∀ x ∈ s.floats, Decimal.isFinite x = true) :
    p.wellFormed = true := by
  have hall : ∀ s ∈ p.steps, s.wellFormed = true :=
    fun s hs => (h.steps s hs).wellFormed (hfinite s hs)
  simp [Path.wellFormed, h.steps_ne_nil, List.all_eq_true.2 hall, h.root_not_mem_tail]

end WellFormed

def Spelled (tokens : List Located) : Prop := ∀ t ∈ tokens, t.token.Spelled

namespace Spelled

variable {tokens us : List Located} {t : Located}

theorem suffix (h : Spelled tokens) (hs : us <:+ tokens) : Spelled us :=
  fun t ht => h t (hs.subset ht)

theorem tail (h : Spelled (t :: us)) : Spelled us := (List.forall_mem_cons.1 h).2

end Spelled

namespace Grammar

variable {stop : Nat} {tokens : List Located} {e : Expr}

theorem spelled_property (ht : Spelled tokens) (h : (property stop tokens).result = .ok e) :
    e.Spelled := by
  unfold property at h
  split at h
  · cases h
  · rename_i t us
    split at h <;> cases h
    · rename_i name hname
      have hspelled := ht t List.mem_cons_self
      rw [hname] at hspelled
      exact .property hspelled
    · exact .property rfl

/-- A call has no arguments, as no function takes any. -/
theorem spelled_named {name : String} {us : List Located} (hname : isFieldName name = true)
    (h : Named stop name tokens us e) : e.Spelled := by
  cases h with
  | property => exact .property hname
  | @call f _ _ _ _ _ _ _ _ _ harity =>
    rw [List.length_eq_zero_iff.1 harity]
    exact .call f

mutual

theorem spelled_expression {stop : Nat} {floor : Tier} {tokens us : List Located} {e : Expr}
    (ht : Spelled tokens) (h : (expression stop floor tokens).Yields e us) : e.Spelled := by
  rw [expression_eq] at h
  obtain ⟨left, ws, hs, hleft, hclimb⟩ := h.of_bind
  have := hs.length_le
  exact spelled_climb (ht.suffix hs) (spelled_operand ht hleft) hclimb
termination_by 4 * tokens.length + 1

theorem spelled_climb {stop : Nat} {floor : Tier} {tokens us : List Located} {e left : Expr}
    (ht : Spelled tokens) (hleft : left.Spelled)
    (h : (climb stop floor left tokens).Yields e us) : e.Spelled := by
  cases of_yields_climb h with
  | stops => exact hleft
  | @turn _ rest _ op _ _ htokens _ _ hright hclimb =>
    have hlength : tokens.length = rest.length + 1 := congrArg List.length htokens
    rw [htokens] at ht
    have := hright.suffix.length_le
    have hbinary := Expr.Spelled.binary op hleft (spelled_expression ht.tail hright)
    exact spelled_climb (ht.tail.suffix hright.suffix) hbinary hclimb
termination_by 4 * tokens.length

theorem spelled_operand {stop : Nat} {tokens us : List Located} {e : Expr} (ht : Spelled tokens)
    (h : (operand stop tokens).Yields e us) : e.Spelled := by
  obtain ⟨t, rest, rfl, hoperand⟩ := of_yields_operand h
  have hspelled := ht t List.mem_cons_self
  cases hoperand with
  | literal htoken =>
    rw [htoken] at hspelled
    exact .literal hspelled
  | named htoken hnamed =>
    rw [htoken] at hspelled
    exact spelled_named hspelled (of_yields_named hnamed)
  | property _ hproperty => exact spelled_property ht.tail hproperty.1
  | parenthesized _ hinner => exact spelled_expression ht.tail hinner
  | @unary op _ _ hinner => exact .unary op (spelled_operand ht.tail hinner)
termination_by 4 * tokens.length

end

/-- Steps are read one by one. A slash is no step, save that the first one stands for the root. -/
inductive ReadSteps (stop : Nat) (first : Bool) (tokens : List Located) : List Step → Prop
  | none : ReadSteps stop first tokens []
  | slash {us : List Located} {rest : List Step} (hsuffix : us <:+ tokens)
      (hlength : us.length < tokens.length) (hrest : (steps stop false us).result = .ok rest)
      (hfirst : first = false) : ReadSteps stop first tokens rest
  | step {us : List Located} {s : Step} {rest : List Step} (hsuffix : us <:+ tokens)
      (hlength : us.length < tokens.length) (hrest : (steps stop false us).result = .ok rest)
      (hs : s.Spelled) (hroot : s = .root → first = true) : ReadSteps stop first tokens (s :: rest)

theorem readSteps_of_ok {first : Bool} {ss : List Step} (ht : Spelled tokens)
    (h : (steps stop first tokens).result = .ok ss) : ReadSteps stop first tokens ss := by
  cases tokens with
  | nil =>
    rw [steps] at h
    cases h
    exact .none
  | cons t us =>
    have hspelled := ht t List.mem_cons_self
    have hsuffix : us <:+ t :: us := List.suffix_cons t us
    have hlength : us.length < (t :: us).length := us.length.lt_succ_self
    have hone (s : Step) (hs : s.Spelled) (hroot : s ≠ .root)
        (h : ((steps stop false us).map (s :: ·)).result = .ok ss) :
        ReadSteps stop first (t :: us) ss := by
      obtain ⟨rest, hrest, rfl⟩ := Reading.Yields.of_map ⟨h, rfl⟩
      exact .step hsuffix hlength hrest.1 hs fun hs => absurd hs hroot
    rw [steps] at h
    cases htoken : t.token with
    | name name =>
      rw [htoken] at hspelled
      simp only [htoken, Reading.result_after] at h
      exact hone (.field name) hspelled (by simp) h
    | symbol s =>
      cases s <;> simp only [htoken, Reading.result_after] at h
      case bar =>
        cases h
        exact .none
      case slash =>
        obtain ⟨rest, hrest, rfl⟩ := Reading.Yields.of_map ⟨h, rfl⟩
        cases first with
        | false => exact .slash hsuffix hlength hrest.1 rfl
        | true => exact .step hsuffix hlength hrest.1 trivial fun _ => rfl
      case doubleSlash => exact hone .descend trivial (by simp) h
      case star => exact hone (.field "*") rfl (by simp) h
      case dot => exact hone .self trivial (by simp) h
      case leftBracket =>
        obtain ⟨e, he, hclosed, -⟩ := Reading.of_bind_eq_ok h
        obtain ⟨-, -, hmap, -⟩ := Reading.of_bind_eq_ok hclosed
        obtain ⟨rest, ⟨hrest, -⟩, rfl⟩ := Reading.Yields.of_map ⟨hmap, rfl⟩
        have hvs := (closing stop .rightBracket .missingBracket
          (expression stop .lowest us).rest).suffix.trans (expression stop .lowest us).suffix
        exact .step (hvs.trans hsuffix) (Nat.lt_succ_of_le hvs.length_le) hrest
          (spelled_expression ht.tail ⟨he, rfl⟩) (by simp)
      all_goals cases h
    | _ =>
      simp only [htoken] at h
      cases h

/-- After the first step, no step stands for the root. -/
theorem root_not_mem_steps {tokens : List Located} {ss : List Step} (ht : Spelled tokens)
    (h : (steps stop false tokens).result = .ok ss) : .root ∉ ss := by
  cases readSteps_of_ok ht h with
  | none => exact List.not_mem_nil
  | slash hsuffix hlength hrest => exact root_not_mem_steps (ht.suffix hsuffix) hrest
  | step hsuffix hlength hrest hs hroot =>
    rw [List.mem_cons, not_or]
    exact ⟨fun hs => Bool.false_ne_true (hroot hs.symm),
      root_not_mem_steps (ht.suffix hsuffix) hrest⟩
termination_by tokens.length

theorem spelled_steps {first : Bool} {tokens : List Located} {ss : List Step}
    (ht : Spelled tokens) (h : (steps stop first tokens).result = .ok ss) :
    ∀ s ∈ ss, s.Spelled := by
  cases readSteps_of_ok ht h with
  | none => simp
  | slash hsuffix hlength hrest => exact spelled_steps (ht.suffix hsuffix) hrest
  | step hsuffix hlength hrest hs =>
    exact List.forall_mem_cons.2 ⟨hs, spelled_steps (ht.suffix hsuffix) hrest⟩
termination_by tokens.length

theorem spelled_branch {p : Path} (ht : Spelled tokens)
    (h : (branch stop tokens).result = .ok p) : p.Spelled := by
  obtain ⟨ss, hss, h, -⟩ := Reading.of_bind_eq_ok h
  cases ss with
  | nil => cases h
  | cons s ss =>
    cases h
    have htail : .root ∉ ss := by
      cases readSteps_of_ok ht hss with
      | slash _ _ _ hfirst => cases hfirst
      | step hsuffix _ hrest => exact root_not_mem_steps (ht.suffix hsuffix) hrest
    exact ⟨List.cons_ne_nil s ss, spelled_steps ht hss, htail⟩

theorem spelled_branches {tokens : List Located} {ps : List Path} (ht : Spelled tokens)
    (h : (branches stop tokens).result = .ok ps) : ps ≠ [] ∧ ∀ p ∈ ps, p.Spelled := by
  obtain ⟨p, us, hp, hcase⟩ := yields_branches_iff.1 ⟨h, rfl⟩
  have hspelled := spelled_branch ht hp.1
  obtain ⟨-, -, rfl⟩ | ⟨bar, vs, qs, rfl, -, hqs, rfl⟩ := hcase
  · exact ⟨List.cons_ne_nil p [], List.forall_mem_singleton.2 hspelled⟩
  · have hlength : vs.length < tokens.length := hp.suffix.length_le
    have hrest := spelled_branches (ht.suffix hp.suffix).tail hqs.1
    exact ⟨List.cons_ne_nil p qs, List.forall_mem_cons.2 ⟨hspelled, hrest.2⟩⟩
termination_by tokens.length

end Grammar

theorem Query.of_compile_eq_ok {text : String} {q : Query} (h : compile text = .ok q) :
    ∃ ls, tokenize text = .ok ls ∧
      (Grammar.branches text.utf8ByteSize ls).result = .ok q.branches := by
  unfold compile Cursor.ofText at h
  cases htokens : tokenize text with
  | error e =>
    rw [htokens] at h
    cases h
  | ok ls =>
    rw [htokens] at h
    change Except.map Query.mk (Grammar.branches text.utf8ByteSize ls).result = _ at h
    cases hbranches : (Grammar.branches text.utf8ByteSize ls).result with
    | error e =>
      rw [hbranches] at h
      cases h
    | ok ps =>
      rw [hbranches] at h
      cases h
      exact ⟨ls, rfl, hbranches⟩

/-- What compiles can be written down, if its doubles can. -/
theorem Query.wellFormed_of_compile {text : String} {q : Query} (h : compile text = .ok q)
    (hfinite : ∀ x ∈ q.floats, Decimal.isFinite x = true) : q.wellFormed = true := by
  obtain ⟨ls, htokens, hbranches⟩ := of_compile_eq_ok h
  obtain ⟨hne, hps⟩ := Grammar.spelled_branches (spelled_of_tokenize htokens) hbranches
  simp only [wellFormed, Bool.and_eq_true, Bool.not_eq_true', List.isEmpty_eq_false_iff,
    List.all_eq_true]
  refine ⟨hne, fun p hp => (hps p hp).wellFormed fun s hs x hx => hfinite x ?_⟩
  exact List.mem_flatMap.2 ⟨p, hp, List.mem_flatMap.2 ⟨s, hs, hx⟩⟩

/-- Each branch of a query that was read from a text has steps, of which only the first can be the
root. Names are no constants, literals have no sign and leave one kind of quote to stand around
them, and calls have no arguments, however deep in a key they stand. -/
theorem Query.spelled_of_compile {text : String} {q : Query} (h : compile text = .ok q) :
    q.branches ≠ [] ∧ ∀ p ∈ q.branches,
      p.steps ≠ [] ∧ .root ∉ p.steps.tail ∧
      (∀ name, .field name ∈ p.steps → isFieldName name = true) ∧
      ∀ key d : Expr, .key key ∈ p.steps → d.OccursIn key →
        (∀ name, d = .property name → isFieldName name = true) ∧
        (∀ n, d = .literal (.int n) → 0 ≤ n.toInt) ∧
        (∀ x, d = .literal (.float x) → x.isNaN = false ∧ (Decimal.parts x).negative = false) ∧
        (∀ s, d = .literal (.string s) → ¬ ('\'' ∈ s.toList ∧ '\"' ∈ s.toList)) ∧
        ∀ f arguments, d = .call f arguments → arguments = [] := by
  obtain ⟨ls, htokens, hbranches⟩ := of_compile_eq_ok h
  obtain ⟨hne, hps⟩ := Grammar.spelled_branches (spelled_of_tokenize htokens) hbranches
  refine ⟨hne, fun p hp => ?_⟩
  obtain ⟨hsteps, hspelled, hroot⟩ := hps p hp
  refine ⟨hsteps, hroot, fun name hname => hspelled _ hname, fun key d hkey hd => ?_⟩
  have hpart : d.Spelled := Expr.Spelled.of_occursIn (hspelled _ hkey) hd
  refine ⟨?_, ?_, ?_, ?_, ?_⟩
  · rintro name rfl
    cases hpart with
    | property hname => exact hname
  · rintro n rfl
    cases hpart with
    | literal hn => exact hn
  · rintro x rfl
    cases hpart with
    | literal hx => exact hx
  · rintro s rfl
    cases hpart with
    | literal hs => exact not_and_or.2 hs
  · rintro f arguments rfl
    cases hpart with
    | call => rfl

/-- A number and a call inside parentheses, and a string that holds a quote. -/
theorem Query.spelled_of_compile_search :
    let sum : Expr := .binary (.compute .add) (.literal (.float 2.5)) (.call .length [])
    let key : Expr := .binary (.compare .less) (.unary .minus sum) (.property "price")
    let p : Path := ⟨[.root, .field "book", .key key]⟩
    let q : Query := ⟨[p, ⟨[.descend, .key (.literal (.string "it's"))]⟩]⟩
    compile "/book[-(02.50 + length()) < @price] | //[\"it's\"]" = .ok q ∧
      (.root : Step) ∉ p.steps.tail ∧ (Expr.literal (.float 2.5)).OccursIn key ∧
      (2.5 : Float).isNaN = false ∧ (Decimal.parts 2.5).negative = false := by
  intro sum key p q
  have h : compile "/book[-(02.50 + length()) < @price] | //[\"it's\"]" = .ok q := by
    decide +kernel
  have hp : p ∈ q.branches := List.mem_cons_self
  have hkey : .key key ∈ p.steps := by decide
  have hoccurs : (Expr.literal (.float 2.5)).OccursIn key := .left (.operand (.left .self))
  obtain ⟨-, hroot, -, hparts⟩ := (spelled_of_compile h).2 p hp
  obtain ⟨-, -, hfloat, -⟩ := hparts key _ hkey hoccurs
  exact ⟨h, hroot, hoccurs, hfloat 2.5 rfl⟩

end RecordPath
