import Mathlib.Data.List.Forall2
import RecordPath.Proofs.Query.Climbing
import RecordPath.Query.Cursor

namespace RecordPath

/-- The faults that can show at a token. -/
inductive CompileFault.ShowsAt : CompileFault → Token → Prop
  | unexpectedToken (t : Token) : ShowsAt (.unexpectedToken t) t
  | unknownFunction (name : String) : ShowsAt (.unknownFunction name) (.name name)
  | arityMismatch (name : String) (expected found : Nat) :
    ShowsAt (.arityMismatch name expected found) (.name name)
  | missingBracket (t : Token) : ShowsAt .missingBracket t
  | missingParen (t : Token) : ShowsAt .missingParen t
  | missingOperand (s : Symbol) : ShowsAt (.missingOperand s) (.symbol s)
  | emptyQuery (t : Token) : ShowsAt .emptyQuery t

theorem CompileFault.showsAt_missingOperand {t : Token} {op : BinaryOp}
    (h : BinaryOp.ofToken? t = some op) : (missingOperand op.symbol).ShowsAt t := by
  cases t with
  | symbol s =>
    rw [BinaryOp.ofSymbol?_eq_some.1 h]
    exact .missingOperand s
  | _ => cases h

/-- A way to match the tokens of two texts, of which one ends at `stop` and the other at `stop'`. -/
structure Alignment (ρ : Located → Located → Prop) (stop stop' : Nat) : Prop where
  token : ∀ {t t' : Located}, ρ t t' → t'.token = t.token
  ends : ρ ⟨.endOfInput, stop⟩ ⟨.endOfInput, stop'⟩

/-- The same value, or the same fault at matching tokens. -/
inductive Aligned (ρ : Located → Located → Prop) {α : Type} :
    Except CompileError α → Except CompileError α → Prop
  | ok (a : α) : Aligned ρ (.ok a) (.ok a)
  | error {t t' : Located} {fault : CompileFault} (ht : ρ t t') (hf : fault.ShowsAt t.token) :
    Aligned ρ (.error ⟨fault, t.position⟩) (.error ⟨fault, t'.position⟩)

variable {ρ : Located → Located → Prop} {α β : Type}

theorem Aligned.map {x y : Except CompileError α} (h : Aligned ρ x y) (f : α → β) :
    Aligned ρ (x.map f) (y.map f) := by
  cases h with
  | ok a => exact .ok (f a)
  | error ht hf => exact .error ht hf

theorem Aligned.exists_of_error {e : CompileError} {y : Except CompileError α}
    (h : Aligned ρ (.error e) y) :
    ∃ t t', ρ t t' ∧ e.fault.ShowsAt t.token ∧ e.position = t.position := by
  cases h with
  | @error t t' _ ht hf => exact ⟨t, t', ht, hf, rfl⟩

namespace Reading

structure Aligned (ρ : Located → Located → Prop) {tokens tokens' : List Located}
    (r : Reading α tokens) (r' : Reading α tokens') : Prop where
  result : RecordPath.Aligned ρ r.result r'.result
  rest : List.Forall₂ ρ r.rest r'.rest

variable {tokens tokens' us us' : List Located} {t t' : Located} {fault : CompileFault}

theorem aligned_done (a : α) (h : List.Forall₂ ρ tokens tokens') :
    (done a tokens).Aligned ρ (done a tokens') := ⟨.ok a, h⟩

theorem aligned_fail (ht : ρ t t') (hf : fault.ShowsAt t.token)
    (h : List.Forall₂ ρ tokens tokens') :
    (fail ⟨fault, t.position⟩ tokens : Reading α tokens).Aligned ρ
      (fail ⟨fault, t'.position⟩ tokens') := ⟨.error ht hf, h⟩

theorem Aligned.after {r : Reading α us} {r' : Reading α us'} (h : r.Aligned ρ r') :
    (r.after t).Aligned ρ (r'.after t') := ⟨h.result, h.rest⟩

theorem Aligned.map {r : Reading α tokens} {r' : Reading α tokens'} (h : r.Aligned ρ r')
    (f : α → β) : (r.map f).Aligned ρ (r'.map f) := ⟨h.result.map f, h.rest⟩

theorem Aligned.bind {r : Reading α tokens} {r' : Reading α tokens'} (h : r.Aligned ρ r')
    {f : α → (us : List Located) → us <:+ tokens → Reading β us}
    {f' : α → (us : List Located) → us <:+ tokens' → Reading β us}
    (hf : ∀ a us us' hs hs', List.Forall₂ ρ us us' → (f a us hs).Aligned ρ (f' a us' hs')) :
    (r.bind f).Aligned ρ (r'.bind f') := by
  obtain ⟨result, rest, suffix⟩ := r
  obtain ⟨result', rest', suffix'⟩ := r'
  obtain ⟨hresult, hrest⟩ := h
  cases hresult with
  | ok a =>
    obtain ⟨hres, hleft⟩ := hf a rest rest' suffix suffix' hrest
    exact ⟨hres, hleft⟩
  | error ht hshows => exact ⟨.error ht hshows, hrest⟩

end Reading

def frontToken (stop : Nat) : List Located → Located
  | [] => ⟨.endOfInput, stop⟩
  | t :: _ => t

theorem frontPosition_eq (stop : Nat) (tokens : List Located) :
    frontPosition stop tokens = (frontToken stop tokens).position := by cases tokens <;> rfl

theorem unexpectedFront_eq (stop : Nat) (tokens : List Located) :
    unexpectedFront stop tokens =
      ⟨.unexpectedToken (frontToken stop tokens).token, (frontToken stop tokens).position⟩ := by
  cases tokens <;> rfl

namespace Alignment

open Grammar

variable {stop stop' : Nat} {tokens tokens' us us' : List Located} {t t' : Located}

theorem front (A : Alignment ρ stop stop') (h : List.Forall₂ ρ tokens tokens') :
    ρ (frontToken stop tokens) (frontToken stop' tokens') := by
  cases h with
  | nil => exact A.ends
  | cons ht _ => exact ht

theorem unexpected (A : Alignment ρ stop stop') (h : List.Forall₂ ρ tokens tokens') :
    (Reading.fail (unexpectedFront stop tokens) tokens : Reading α tokens).Aligned ρ
      (.fail (unexpectedFront stop' tokens') tokens') := by
  have hfront := A.front h
  rw [unexpectedFront_eq, unexpectedFront_eq, A.token hfront]
  exact Reading.aligned_fail hfront (.unexpectedToken _) h

theorem endsOperand (A : Alignment ρ stop stop') (h : List.Forall₂ ρ tokens tokens') :
    endsOperand tokens' = endsOperand tokens := by
  cases h with
  | nil => rfl
  | cons ht _ => rw [RecordPath.endsOperand, RecordPath.endsOperand, A.token ht]

theorem closing (A : Alignment ρ stop stop') (mark : Symbol) {fault : CompileFault}
    (hf : ∀ t, fault.ShowsAt t) (h : List.Forall₂ ρ tokens tokens') :
    (closing stop mark fault tokens).Aligned ρ (closing stop' mark fault tokens') := by
  cases h with
  | nil => exact Reading.aligned_fail A.ends (hf _) .nil
  | @cons t t' us us' ht hus =>
    rw [Grammar.closing, Grammar.closing, A.token ht]
    split
    · exact (Reading.aligned_done () hus).after
    · exact Reading.aligned_fail ht (hf _) (.cons ht hus)

theorem property (A : Alignment ρ stop stop') (h : List.Forall₂ ρ tokens tokens') :
    (property stop tokens).Aligned ρ (property stop' tokens') := by
  cases h with
  | nil => exact A.unexpected .nil
  | @cons t t' us us' ht hus =>
    rw [Grammar.property, Grammar.property, A.token ht]
    split
    · exact (Reading.aligned_done _ hus).after
    · exact (Reading.aligned_done _ hus).after
    · exact A.unexpected (.cons ht hus)

mutual

theorem expression {tokens tokens' : List Located} (A : Alignment ρ stop stop') (floor : Tier)
    (h : List.Forall₂ ρ tokens tokens') :
    (expression stop floor tokens).Aligned ρ (expression stop' floor tokens') := by
  rw [expression_eq, expression_eq]
  refine (A.operand h).bind fun left rest rest' hs _ hrest => ?_
  have := hs.length_le
  exact A.climb floor left hrest
termination_by 4 * tokens.length + 1

theorem climb {tokens tokens' : List Located} (A : Alignment ρ stop stop') (floor : Tier)
    (left : Expr) (h : List.Forall₂ ρ tokens tokens') :
    (climb stop floor left tokens).Aligned ρ (climb stop' floor left tokens') := by
  cases h with
  | nil =>
    rw [climb_nil, climb_nil]
    exact Reading.aligned_done left .nil
  | @cons t t' us us' ht hus =>
    have htoken := A.token ht
    cases hop : BinaryOp.ofToken? t.token with
    | none =>
      rw [climb_of_none hop, climb_of_none (htoken ▸ hop)]
      exact Reading.aligned_done left (.cons ht hus)
    | some op =>
      have hop' : BinaryOp.ofToken? t'.token = some op := htoken ▸ hop
      by_cases hle : op.tier ≤ floor
      · rw [climb_of_le hop hle, climb_of_le hop' hle]
        exact Reading.aligned_done left (.cons ht hus)
      cases he : RecordPath.endsOperand us with
      | true =>
        rw [climb_of_ends hop hle he, climb_of_ends hop' hle ((A.endsOperand hus).trans he)]
        exact (Reading.aligned_fail ht (CompileFault.showsAt_missingOperand hop) hus).after
      | false =>
        rw [climb_of_lt hop hle he, climb_of_lt hop' hle ((A.endsOperand hus).trans he)]
        refine ((A.expression op.tier hus).bind fun right rest rest' hs _ hrest => ?_).after
        have := hs.length_le
        exact A.climb floor (.binary op left right) hrest
termination_by 4 * tokens.length

theorem operand {tokens tokens' : List Located} (A : Alignment ρ stop stop')
    (h : List.Forall₂ ρ tokens tokens') :
    (operand stop tokens).Aligned ρ (operand stop' tokens') := by
  cases h with
  | nil =>
    rw [Grammar.operand, Grammar.operand]
    exact A.unexpected .nil
  | @cons t t' us us' ht hus =>
    have hunexpected := A.unexpected (α := Expr) (.cons ht hus)
    rw [Grammar.operand, Grammar.operand, A.token ht]
    cases htoken : t.token with
    | int n => exact (Reading.aligned_done _ hus).after
    | float x => exact (Reading.aligned_done _ hus).after
    | string s => exact (Reading.aligned_done _ hus).after
    | bool b => exact (Reading.aligned_done _ hus).after
    | name name => exact (A.named ht htoken hus).after
    | endOfInput => exact hunexpected
    | symbol s =>
      have hprefix (op : UnaryOp) :
          (if RecordPath.endsOperand us then
              (Reading.fail ⟨.missingOperand s, t.position⟩ us).after t
            else ((Grammar.expression stop .operand us).map (Expr.unary op)).after t).Aligned ρ
          (if RecordPath.endsOperand us' then
              (Reading.fail ⟨.missingOperand s, t'.position⟩ us').after t'
            else ((Grammar.expression stop' .operand us').map (Expr.unary op)).after t') := by
        rw [A.endsOperand hus]
        split_ifs
        · exact (Reading.aligned_fail ht (htoken ▸ .missingOperand s) hus).after
        · exact ((A.expression .operand hus).map (Expr.unary op)).after
      cases s with
      | atSign => exact (A.property hus).after
      | leftParen =>
        refine ((A.expression .lowest hus).bind fun e rest rest' _ _ hrest => ?_).after
        exact (A.closing .rightParen .missingParen hrest).map fun _ => e
      | bang => exact hprefix .not
      | plus => exact hprefix .plus
      | minus => exact hprefix .minus
      | _ => exact hunexpected
termination_by 4 * tokens.length

theorem named {tokens tokens' : List Located} (A : Alignment ρ stop stop') {t t' : Located}
    {name : String} (ht : ρ t t') (hname : t.token = .name name)
    (h : List.Forall₂ ρ tokens tokens') :
    (named stop name t.position tokens).Aligned ρ (named stop' name t'.position tokens') := by
  cases h with
  | nil =>
    rw [Grammar.named, Grammar.named]
    exact Reading.aligned_done _ .nil
  | @cons u u' us us' hu hus =>
    rw [Grammar.named, Grammar.named, A.token hu]
    split_ifs
    · cases Builtin.ofName? name with
      | none => exact Reading.aligned_fail ht (hname ▸ .unknownFunction name) (.cons hu hus)
      | some f =>
        refine ((A.arguments hus).bind fun args rest rest' _ _ hrest => ?_).after
        refine (A.closing .rightParen .missingParen hrest).bind fun _ rest rest' _ _ hrest => ?_
        split_ifs
        · exact Reading.aligned_done _ hrest
        · exact Reading.aligned_fail ht (hname ▸ .arityMismatch name _ _) hrest
    · exact Reading.aligned_done _ (.cons hu hus)
termination_by 4 * tokens.length + 1

theorem arguments {tokens tokens' : List Located} (A : Alignment ρ stop stop')
    (h : List.Forall₂ ρ tokens tokens') :
    (arguments stop tokens).Aligned ρ (arguments stop' tokens') := by
  cases h with
  | nil =>
    rw [Grammar.arguments, Grammar.arguments]
    exact A.separated .nil
  | @cons t t' us us' ht hus =>
    rw [Grammar.arguments, Grammar.arguments, A.token ht]
    split_ifs
    · exact Reading.aligned_done _ (.cons ht hus)
    · exact A.separated (.cons ht hus)
termination_by 4 * tokens.length + 3

theorem separated {tokens tokens' : List Located} (A : Alignment ρ stop stop')
    (h : List.Forall₂ ρ tokens tokens') :
    (separated stop tokens).Aligned ρ (separated stop' tokens') := by
  rw [Grammar.separated, Grammar.separated]
  refine (A.expression .lowest h).bind fun e rest rest' hs _ hrest => ?_
  have := hs.length_le
  cases hrest with
  | nil => exact Reading.aligned_done _ .nil
  | @cons t t' us us' ht hus =>
    simp only [A.token ht]
    split_ifs
    · exact ((A.separated hus).map (e :: ·)).after
    · exact Reading.aligned_done _ (.cons ht hus)
termination_by 4 * tokens.length + 2

end

theorem steps {tokens tokens' : List Located} (A : Alignment ρ stop stop') (first : Bool)
    (h : List.Forall₂ ρ tokens tokens') :
    (steps stop first tokens).Aligned ρ (steps stop' first tokens') := by
  cases h with
  | nil =>
    rw [Grammar.steps, Grammar.steps]
    exact Reading.aligned_done [] .nil
  | @cons t t' us us' ht hus =>
    have hunexpected := A.unexpected (α := List Step) (.cons ht hus)
    rw [Grammar.steps, Grammar.steps, A.token ht]
    have hstep (f : List Step → List Step) :
        (((Grammar.steps stop false us).map f).after t).Aligned ρ
          (((Grammar.steps stop' false us').map f).after t') :=
      ((A.steps false hus).map f).after
    cases t.token with
    | name name => exact hstep _
    | symbol s =>
      cases s with
      | bar => exact Reading.aligned_done [] (.cons ht hus)
      | slash | doubleSlash | star | dot => exact hstep _
      | leftBracket =>
        refine ((A.expression .lowest hus).bind fun e rest rest' hs _ hrest => ?_).after
        refine (A.closing .rightBracket .missingBracket hrest).bind fun _ ws ws' hs' _ hws => ?_
        have := hs.length_le
        have := hs'.length_le
        exact (A.steps false hws).map (.key e :: ·)
      | _ => exact hunexpected
    | _ => exact hunexpected
termination_by tokens.length

theorem branch (A : Alignment ρ stop stop') (h : List.Forall₂ ρ tokens tokens') :
    (branch stop tokens).Aligned ρ (branch stop' tokens') := by
  refine (A.steps true h).bind fun ss rest rest' _ _ hrest => ?_
  cases ss with
  | nil =>
    rw [frontPosition_eq, frontPosition_eq]
    exact Reading.aligned_fail (A.front h) (.emptyQuery _) hrest
  | cons s ss => exact Reading.aligned_done _ hrest

theorem branches {tokens tokens' : List Located} (A : Alignment ρ stop stop')
    (h : List.Forall₂ ρ tokens tokens') :
    (branches stop tokens).Aligned ρ (branches stop' tokens') := by
  rw [Grammar.branches, Grammar.branches]
  refine (A.branch h).bind fun p rest rest' hs _ hrest => ?_
  have := hs.length_le
  cases hrest with
  | nil => exact Reading.aligned_done _ .nil
  | @cons t t' us us' ht hus =>
    simp only [A.token ht]
    split_ifs
    · exact ((A.branches hus).map (p :: ·)).after
    · exact A.unexpected (.cons ht hus)
termination_by tokens.length

end Alignment

namespace Cursor

structure Aligned (ρ : Located → Located → Prop) (c c' : Cursor) : Prop where
  alignment : Alignment ρ c.stop c'.stop
  rest : List.Forall₂ ρ c.rest c'.rest

variable {c c' : Cursor}

theorem Aligned.query (h : c.Aligned ρ c') :
    RecordPath.Aligned ρ c.query.1 c'.query.1 ∧ c.query.2.Aligned ρ c'.query.2 := by
  have hbranches := h.alignment.branches h.rest
  exact ⟨hbranches.result.map Query.mk, h.alignment, hbranches.rest⟩

theorem Aligned.expression (h : c.Aligned ρ c') (floor : Tier) :
    RecordPath.Aligned ρ (c.expression floor).1 (c'.expression floor).1 ∧
      (c.expression floor).2.Aligned ρ (c'.expression floor).2 := by
  have hexpression := h.alignment.expression floor h.rest
  exact ⟨hexpression.result, h.alignment, hexpression.rest⟩

end Cursor

end RecordPath
