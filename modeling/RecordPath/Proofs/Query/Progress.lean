import Mathlib.Data.List.Induction
import RecordPath.Proofs.Query.Indexed
import RecordPath.Proofs.Query.Items

namespace RecordPath

namespace Cursor

def after (c : Cursor) (calls : List Call) : Cursor := calls.foldl (fun c k => (c.call k).2) c

theorem suffix_call (c : Cursor) (k : Call) : (c.call k).2.rest <:+ c.rest := by
  cases k with
  | query => exact (Grammar.branches c.stop c.rest).suffix
  | expression floor => exact (Grammar.expression c.stop floor c.rest).suffix

theorem length_after_le (tokens : List Located) (calls : List Call) :
    ((ofTokens tokens).after calls).rest.length ≤ tokens.length := by
  induction calls using List.reverseRecOn with
  | nil => exact (List.takeWhile_prefix _).length_le
  | append_singleton calls k ih =>
    rw [after, List.foldl_append]
    exact ((((ofTokens tokens).after calls).suffix_call k).length_le).trans ih

theorem length_call_lt {c : Cursor} {k : Call} {e : Expr} (h : (c.call k).1 = .ok (.inr e)) :
    (c.call k).2.rest.length < c.rest.length := by
  cases k with
  | query =>
    rw [call] at h
    cases hq : c.query.1 <;> rw [hq] at h <;> cases h
  | expression floor =>
    rw [call] at h
    cases he : (c.expression floor).1 with
    | error e => rw [he] at h; cases h
    | ok e' => exact Grammar.length_lt_of_yields_expression (e := e') ⟨he, rfl⟩

end Cursor

namespace Scan

variable {α β : Type}

section Runs

variable {m : Scan α} {k : α → Scan β} {tokens : List Located} {i j : Nat} {a : α}
variable {e : CompileError}

theorem bind_of_ok (h : m tokens i = some (.ok a, j)) : (m >>= k) tokens i = k a tokens j := by
  change (m tokens i >>= fun r => ExceptT.bindCont (fun a => k a tokens) r.1 r.2) = _
  rw [h]
  rfl

theorem bind_of_error (h : m tokens i = some (.error e, j)) :
    (m >>= k) tokens i = some (.error e, j) := by
  change (m tokens i >>= fun r => ExceptT.bindCont (fun a => k a tokens) r.1 r.2) = _
  rw [h]
  rfl

end Runs

/-- Ahead of an index stand these tokens, none of which is an end mark, and an end mark behind
them. -/
structure Ahead (tokens : List Located) (stop i : Nat) (rest : List Located) : Prop where
  ne_end : ∀ t ∈ rest, t.token ≠ .endOfInput
  drop_eq : ∃ tail, tokens.drop i = rest ++ ⟨.endOfInput, stop⟩ :: tail

namespace Ahead

variable {tokens rest us : List Located} {stop i : Nat} {t : Located}

theorem getElem? (h : Ahead tokens stop i rest) : tokens[i]? = some (frontToken stop rest) := by
  obtain ⟨tail, htail⟩ := h.drop_eq
  rw [← Nat.add_zero i, ← List.getElem?_drop, htail]
  cases rest <;> rfl

theorem current (h : Ahead tokens stop i rest) :
    current tokens i = some (.ok (frontToken stop rest), i) := by
  rw [Scan.current, h.getElem?]
  rfl

theorem add_length_lt (h : Ahead tokens stop i rest) : i + rest.length < tokens.length := by
  obtain ⟨tail, htail⟩ := h.drop_eq
  have hlen := congrArg List.length htail
  rw [List.length_drop, List.length_append, List.length_cons] at hlen
  omega

theorem tail (h : Ahead tokens stop i (t :: us)) : Ahead tokens stop (i + 1) us := by
  obtain ⟨tail, htail⟩ := h.drop_eq
  refine ⟨fun u hu => h.ne_end u (List.mem_cons_of_mem t hu), tail, ?_⟩
  rw [← List.drop_drop, htail]
  rfl

theorem advance (h : Ahead tokens stop i (t :: us)) :
    advance tokens i = some (.ok (), i + 1) := by
  have hlt : i + 1 < tokens.length := by
    have := h.add_length_lt
    rw [List.length_cons] at this
    omega
  rw [Scan.advance, if_pos hlt]

end Ahead

/-- The scan comes to the same as the reading of what is ahead of the index, and leaves the index
where that reading leaves off. -/
def Follows (stop : Nat) (m : Scan α) {rest : List Located} (r : Reading α rest) : Prop :=
  ∀ tokens i, Ahead tokens stop i rest → ∃ j, m tokens i = some (r.result, j) ∧
    Ahead tokens stop j r.rest ∧ j + r.rest.length = i + rest.length

section Follows

variable {stop : Nat} {m : Scan α} {rest us : List Located} {t : Located}

theorem follows_pure (a : α) : Follows stop (pure a) (Reading.done a rest) :=
  fun _ i h => ⟨i, rfl, h, rfl⟩

theorem follows_throw (e : CompileError) :
    Follows stop (throw e : Scan α) (Reading.fail e rest) :=
  fun _ i h => ⟨i, rfl, h, rfl⟩

theorem Follows.bind {k : α → Scan β} {r : Reading α rest}
    {f : α → (us : List Located) → us <:+ rest → Reading β us} (h : Follows stop m r)
    (hk : ∀ a us hs, Follows stop (k a) (f a us hs)) : Follows stop (m >>= k) (r.bind f) := by
  intro tokens i ha
  obtain ⟨j, hrun, hj, hlen⟩ := h tokens i ha
  cases hr : r.result with
  | ok a =>
    rw [hr] at hrun
    obtain ⟨hres, hrest⟩ := Reading.bind_of_ok (f := f) hr
    obtain ⟨l, hrun', hl, hlen'⟩ := hk a r.rest r.suffix tokens j hj
    rw [bind_of_ok hrun, hres, hrest]
    exact ⟨l, hrun', hl, hlen'.trans hlen⟩
  | error e =>
    rw [hr] at hrun
    obtain ⟨hres, hrest⟩ := Reading.bind_of_error (f := f) hr
    rw [bind_of_error hrun, hres, hrest]
    exact ⟨j, rfl, hj, hlen⟩

theorem Follows.map {r : Reading α rest} (h : Follows stop m r) (f : α → β) :
    Follows stop (do let a ← m; return f a) (r.map f) := by
  rw [Reading.map_eq_bind]
  exact h.bind fun a _ _ => follows_pure (f a)

theorem Follows.current {k : Located → Scan α} {r : Reading α rest}
    (h : Follows stop (k (frontToken stop rest)) r) : Follows stop (current >>= k) r := by
  intro tokens i ha
  rw [bind_of_ok ha.current]
  exact h tokens i ha

theorem Follows.advance {k : Unit → Scan α} {r : Reading α us} (h : Follows stop (k ()) r) :
    Follows stop (advance >>= k) (r.after t) := by
  intro tokens i ha
  obtain ⟨j, hrun, hj, hlen⟩ := h tokens (i + 1) ha.tail
  rw [bind_of_ok ha.advance]
  refine ⟨j, hrun, hj, ?_⟩
  rw [Reading.rest_after, hlen, List.length_cons]
  omega

theorem follows_take (a : α) :
    Follows stop (do advance; return a) ((Reading.done a us).after t) :=
  Follows.advance (k := fun _ => pure a) (follows_pure a)

/-- No end mark is ahead before the last token. -/
theorem follows_of_end {r : Reading α (t :: us)} (ht : t.token = .endOfInput) :
    Follows stop m r :=
  fun _ _ ha => absurd ht (ha.ne_end t List.mem_cons_self)

theorem follows_unexpected :
    Follows stop (unexpected : Scan α) (.fail (unexpectedFront stop rest) rest) := by
  rw [unexpectedFront_eq]
  exact (follows_throw _).current

theorem Follows.endsHere {k : Bool → Scan α} {r : Reading α rest}
    (h : Follows stop (k (endsOperand rest)) r) : Follows stop (endsHere >>= k) r := by
  have he : endsOperand [frontToken stop rest] = endsOperand rest := by cases rest <;> rfl
  rw [RecordPath.Scan.endsHere, bind_assoc]
  refine Follows.current ?_
  rw [pure_bind, he]
  exact h

theorem follows_closing (mark : Symbol) (fault : CompileFault) :
    Follows stop (closing mark fault) (Grammar.closing stop mark fault rest) := by
  apply Follows.current
  cases rest with
  | nil =>
    exact follows_throw _
  | cons t us =>
    rw [Grammar.closing, frontToken]
    split
    · exact follows_take ()
    · exact follows_throw _

theorem follows_property : Follows stop property (Grammar.property stop rest) := by
  apply Follows.current
  cases rest with
  | nil => exact follows_unexpected
  | cons t us =>
    have hunexpected : Follows stop (unexpected : Scan Expr)
        (.fail (unexpectedFront stop (t :: us)) (t :: us)) := follows_unexpected
    rw [Grammar.property, frontToken]
    cases t.token with
    | name name => exact follows_take _
    | symbol s =>
      cases s with
      | star => exact follows_take _
      | _ => exact hunexpected
    | _ => exact hunexpected

end Follows

namespace Phrase

/-- What reading a phrase comes to. What was read of it before stands in front. -/
def reading (stop : Nat) (rest : List Located) : {α : Type} → Phrase α → Reading α rest
  | _, .expression floor => Grammar.expression stop floor rest
  | _, .climb floor left => Grammar.climb stop floor left rest
  | _, .operand => Grammar.operand stop rest
  | _, .named name position => Grammar.named stop name position rest
  | _, .arguments => Grammar.arguments stop rest
  | _, .separated args => (Grammar.separated stop rest).map (args ++ ·)
  | _, .steps ss => (Grammar.steps stop ss.isEmpty rest).map (ss ++ ·)
  | _, .branches paths => (Grammar.branches stop rest).map (paths ++ ·)

def bound (length : Nat) : Phrase α → Nat
  | .climb .. | .operand | .steps _ => 4 * length
  | .expression _ | .named .. | .branches _ => 4 * length + 1
  | .separated _ => 4 * length + 2
  | .arguments => 4 * length + 3

end Phrase

def FollowsBelow (stop depth : Nat) (read : {α : Type} → Phrase α → Scan α) : Prop :=
  ∀ {α : Type} (p : Phrase α) (us : List Located), p.bound us.length < depth →
    Follows stop (read p) (p.reading stop us)

section Phrases

variable {stop depth : Nat} {read : {α : Type} → Phrase α → Scan α} {rest : List Located}

theorem follows_expression (ih : FollowsBelow stop depth read) (floor : Tier)
    (h : 4 * rest.length + 1 ≤ depth) :
    Follows stop (expression read floor) (Grammar.expression stop floor rest) := by
  rw [Grammar.expression_eq]
  refine (ih .operand rest (by rw [Phrase.bound]; omega)).bind fun left us hs => ?_
  have := hs.length_le
  exact ih (.climb floor left) us (by rw [Phrase.bound]; omega)

theorem follows_climb (ih : FollowsBelow stop depth read) (floor : Tier) (left : Expr)
    (h : 4 * rest.length ≤ depth) :
    Follows stop (climb read floor left) (Grammar.climb stop floor left rest) := by
  apply Follows.current
  cases rest with
  | nil =>
    rw [Grammar.climb_nil]
    exact follows_pure left
  | cons t us =>
    rw [List.length_cons] at h
    rw [frontToken]
    cases hop : BinaryOp.ofToken? t.token with
    | none =>
      rw [Grammar.climb_of_none hop]
      exact follows_pure left
    | some op =>
      by_cases hle : op.tier ≤ floor
      · rw [Grammar.climb_of_le hop hle]
        simp only [hle, if_true]
        exact follows_pure left
      simp only [hle, if_false]
      cases he : endsOperand us with
      | true =>
        rw [Grammar.climb_of_ends hop hle he]
        apply Follows.advance
        apply Follows.endsHere
        rw [he]
        exact follows_throw _
      | false =>
        rw [Grammar.climb_of_lt hop hle he]
        apply Follows.advance
        apply Follows.endsHere
        rw [he]
        refine (ih (.expression op.tier) us (by rw [Phrase.bound]; omega)).bind
          fun right vs hs => ?_
        have := hs.length_le
        exact ih (.climb floor (.binary op left right)) vs (by rw [Phrase.bound]; omega)

theorem follows_unary (ih : FollowsBelow stop depth read) (op : UnaryOp) (mark : Symbol)
    {t : Located} {us : List Located} (h : 4 * us.length + 1 < depth) :
    Follows stop (unary read op mark t.position)
      (if endsOperand us then (Reading.fail ⟨.missingOperand mark, t.position⟩ us).after t
      else ((Grammar.expression stop .operand us).map (Expr.unary op)).after t) := by
  cases he : endsOperand us with
  | true =>
    apply Follows.advance
    apply Follows.endsHere
    rw [he]
    exact follows_throw _
  | false =>
    apply Follows.advance
    apply Follows.endsHere
    rw [he]
    exact (ih (.expression .operand) us h).map (Expr.unary op)

theorem follows_operand (ih : FollowsBelow stop depth read) (h : 4 * rest.length ≤ depth) :
    Follows stop (operand read) (Grammar.operand stop rest) := by
  apply Follows.current
  cases rest with
  | nil =>
    rw [Grammar.operand]
    exact follows_unexpected
  | cons t us =>
    have hus : 4 * us.length + 1 < depth := by
      rw [List.length_cons] at h
      omega
    have hunexpected : Follows stop (unexpected : Scan Expr)
        (.fail (unexpectedFront stop (t :: us)) (t :: us)) := follows_unexpected
    rw [Grammar.operand, frontToken]
    cases t.token with
    | int n => exact follows_take _
    | float x => exact follows_take _
    | string s => exact follows_take _
    | bool b => exact follows_take _
    | name name => exact (ih (.named name t.position) us hus).advance
    | endOfInput => exact hunexpected
    | symbol s =>
      cases s with
      | atSign => exact follows_property.advance
      | leftParen =>
        apply Follows.advance
        refine (ih (.expression .lowest) us hus).bind fun e vs _ => ?_
        exact (follows_closing .rightParen .missingParen).map fun _ => e
      | bang => exact follows_unary ih .not .bang hus
      | plus => exact follows_unary ih .plus .plus hus
      | minus => exact follows_unary ih .minus .minus hus
      | _ => exact hunexpected

theorem follows_named (ih : FollowsBelow stop depth read) (name : String) (position : Nat)
    (h : 4 * rest.length + 1 ≤ depth) :
    Follows stop (named read name position) (Grammar.named stop name position rest) := by
  apply Follows.current
  cases rest with
  | nil =>
    rw [Grammar.named]
    exact follows_pure _
  | cons t us =>
    rw [List.length_cons] at h
    rw [Grammar.named, frontToken]
    by_cases hleft : t.token = .symbol .leftParen
    · rw [if_pos hleft, if_pos hleft]
      cases Builtin.ofName? name with
      | none => exact follows_throw _
      | some f =>
        apply Follows.advance
        refine (ih .arguments us (by rw [Phrase.bound]; omega)).bind fun args vs _ => ?_
        refine (follows_closing .rightParen .missingParen).bind fun _ ws _ => ?_
        by_cases hlen : args.length = f.arity
        · rw [if_pos hlen, if_pos hlen]
          exact follows_pure _
        · rw [if_neg hlen, if_neg hlen]
          exact follows_throw _
    · rw [if_neg hleft, if_neg hleft]
      exact follows_pure _

theorem follows_arguments (ih : FollowsBelow stop depth read) (h : 4 * rest.length + 3 ≤ depth) :
    Follows stop (arguments read) (Grammar.arguments stop rest) := by
  have hseparated := ih (.separated []) rest h
  simp only [Phrase.reading, List.nil_append, Reading.map_id] at hseparated
  apply Follows.current
  cases rest with
  | nil =>
    rw [Grammar.arguments]
    exact hseparated
  | cons t us =>
    rw [Grammar.arguments, frontToken]
    split
    · exact follows_pure _
    · exact hseparated

theorem follows_separated (ih : FollowsBelow stop depth read) (args : List Expr)
    (h : 4 * rest.length + 2 ≤ depth) :
    Follows stop (separated read args) ((Grammar.separated stop rest).map (args ++ ·)) := by
  rw [Grammar.separated, Reading.bind_map]
  refine (ih (.expression .lowest) rest h).bind fun e vs hs => ?_
  have := hs.length_le
  apply Follows.current
  cases vs with
  | nil => exact follows_pure _
  | cons t us =>
    rw [List.length_cons] at this
    rw [frontToken]
    by_cases hcomma : t.token = .symbol .comma
    · simp only [hcomma, if_true]
      have hnext := ih (.separated (args ++ [e])) us (by rw [Phrase.bound]; omega)
      simp only [Phrase.reading, List.append_assoc, List.singleton_append] at hnext
      rw [Reading.map_after, Reading.map_map]
      exact hnext.advance
    · simp only [hcomma, if_false]
      exact follows_pure _

theorem follows_steps (ih : FollowsBelow stop depth read) (ss : List Step)
    (h : 4 * rest.length ≤ depth) :
    Follows stop (steps read ss) ((Grammar.steps stop ss.isEmpty rest).map (ss ++ ·)) := by
  have hdone (vs : List Located) :
      Follows stop (pure ss) ((Reading.done ([] : List Step) vs).map (ss ++ ·)) := by
    have hread : (Reading.done ([] : List Step) vs).map (ss ++ ·) = .done ss vs :=
      congrArg (Reading.done · vs) (List.append_nil ss)
    rw [hread]
    exact follows_pure ss
  apply Follows.current
  cases rest with
  | nil =>
    rw [Grammar.steps]
    exact hdone []
  | cons t us =>
    rw [List.length_cons] at h
    have hunexpected : Follows stop (unexpected : Scan (List Step))
        ((Reading.fail (unexpectedFront stop (t :: us)) (t :: us)).map (ss ++ ·)) :=
      follows_unexpected
    -- with one more step, what comes later does not begin the branch
    have hstep (more : List Step) {f : List Step → List Step} (hne : more.isEmpty = false)
        (hf : ∀ later, more ++ later = ss ++ f later) :
        Follows stop (do advance; read (.steps more))
          ((((Grammar.steps stop false us).map f).after t).map (ss ++ ·)) := by
      have hnext := ih (.steps more) us (by rw [Phrase.bound]; omega)
      simp only [Phrase.reading, hne, hf] at hnext
      rw [Reading.map_after, Reading.map_map]
      exact hnext.advance
    rw [Grammar.steps, frontToken]
    cases ht : t.token with
    | name name => exact hstep _ (by simp) (by simp)
    | endOfInput => exact follows_of_end ht
    | symbol s =>
      cases s with
      | bar => exact hdone (t :: us)
      | slash => cases ss <;> exact hstep _ rfl fun _ => rfl
      | doubleSlash | star | dot => exact hstep _ (by simp) (by simp)
      | leftBracket =>
        rw [Reading.map_after, Reading.bind_map]
        apply Follows.advance
        refine (ih (.expression .lowest) us (by rw [Phrase.bound]; omega)).bind fun e vs hs => ?_
        rw [Reading.bind_map]
        refine (follows_closing .rightBracket .missingBracket).bind fun _ ws hs' => ?_
        have := (hs'.trans hs).length_le
        have hnext := ih (.steps (ss ++ [.key e])) ws (by rw [Phrase.bound]; omega)
        have hne : (ss ++ [Step.key e]).isEmpty = false := by simp
        simp only [Phrase.reading, hne, List.append_assoc, List.singleton_append] at hnext
        rw [Reading.map_map]
        exact hnext
      | _ => exact hunexpected
    | _ => exact hunexpected

theorem follows_branch (ih : FollowsBelow stop depth read) (h : 4 * rest.length < depth) :
    Follows stop (branch read) (Grammar.branch stop rest) := by
  have hsteps := ih (.steps []) rest h
  simp only [Phrase.reading, List.nil_append, Reading.map_id, List.isEmpty_nil] at hsteps
  rw [Grammar.branch]
  apply Follows.current
  refine hsteps.bind fun ss us _ => ?_
  cases ss with
  | nil =>
    rw [frontPosition_eq]
    exact follows_throw _
  | cons s ss => exact follows_pure _

theorem follows_branches (ih : FollowsBelow stop depth read) (paths : List Path)
    (h : 4 * rest.length + 1 ≤ depth) :
    Follows stop (branches read paths) ((Grammar.branches stop rest).map (paths ++ ·)) := by
  rw [Grammar.branches, Reading.bind_map]
  refine (follows_branch ih h).bind fun p vs hs => ?_
  have := hs.length_le
  apply Follows.current
  cases vs with
  | nil => exact follows_pure _
  | cons t us =>
    rw [List.length_cons] at this
    have hunexpected : Follows stop (unexpected : Scan (List Path))
        ((Reading.fail (unexpectedFront stop (t :: us)) (t :: us)).map (paths ++ ·)) :=
      follows_unexpected
    rw [frontToken]
    by_cases hbar : t.token = .symbol .bar
    · simp only [hbar, if_true]
      have hnext := ih (.branches (paths ++ [p])) us (by rw [Phrase.bound]; omega)
      simp only [Phrase.reading, List.append_assoc, List.singleton_append] at hnext
      rw [Reading.map_after, Reading.map_map]
      exact hnext.advance
    · simp only [hbar, if_false]
      split
      · exact absurd ‹_› hbar
      · exact follows_of_end ‹_›
      · exact hunexpected

theorem follows_phrase (ih : FollowsBelow stop depth read) (p : Phrase α)
    (h : p.bound rest.length ≤ depth) : Follows stop (phrase read p) (p.reading stop rest) := by
  cases p with
  | expression floor => exact follows_expression ih floor h
  | climb floor left => exact follows_climb ih floor left h
  | operand => exact follows_operand ih h
  | named name position => exact follows_named ih name position h
  | arguments => exact follows_arguments ih h
  | separated args => exact follows_separated ih args h
  | steps ss => exact follows_steps ih ss h
  | branches paths => exact follows_branches ih paths h

end Phrases

/-- A depth that grows with the number of tokens suffices for every phrase. -/
theorem followsBelow_read (stop depth : Nat) : FollowsBelow stop depth (read depth) := by
  induction depth with
  | zero =>
    intro α p us h
    omega
  | succ depth ih =>
    intro α p us h
    exact follows_phrase ih p (by omega)

/-- Where a cursor stands, a scan answers what the cursor answers, and goes where it goes. -/
theorem run_call {tokens : List Located} {i depth : Nat} {c : Cursor}
    (h : Ahead tokens c.stop i c.rest) (hdepth : 4 * c.rest.length + 1 < depth) (k : Call) :
    ∃ j, call depth k tokens i = some ((c.call k).1, j) ∧
      Ahead tokens (c.call k).2.stop j (c.call k).2.rest ∧
      j + (c.call k).2.rest.length = i + c.rest.length := by
  cases k with
  | query =>
    have hbranches := followsBelow_read c.stop depth (.branches []) c.rest hdepth
    simp only [Phrase.reading, List.nil_append, Reading.map_id] at hbranches
    obtain ⟨j, hrun, hj⟩ := hbranches.map (fun paths => Sum.inl (Query.mk paths)) tokens i h
    have hresult : (c.call .query).1 =
        ((Grammar.branches c.stop c.rest).map
          fun paths => (Sum.inl (Query.mk paths) : Query ⊕ Expr)).result :=
      congrArg Reading.result (Reading.map_map _ Query.mk Sum.inl)
    exact ⟨j, hresult ▸ hrun, hj⟩
  | expression floor =>
    have hexpression := followsBelow_read c.stop depth (.expression floor) c.rest hdepth
    exact hexpression.map Sum.inr tokens i h

theorem exists_closeTokens_eq (tokens : List Located) :
    ∃ tail, closeTokens tokens = tokens ++ tail := by
  rw [closeTokens]
  split
  · exact ⟨[], (List.append_nil _).symm⟩
  · exact ⟨_, rfl⟩

theorem ahead_closeTokens (tokens : List Located) :
    Ahead (closeTokens tokens) (Cursor.ofTokens tokens).stop 0 (Cursor.ofTokens tokens).rest := by
  refine ⟨fun t => Cursor.ne_endOfInput_of_mem_rest, ?_⟩
  rw [List.drop_zero]
  cases hfind : tokens.find? (·.token = .endOfInput) with
  | none =>
    have hne : ∀ t ∈ tokens, t.token ≠ .endOfInput := by simpa using hfind
    have hopen : tokens.getLast?.any (·.token = .endOfInput) = false :=
      (Option.any_eq_false ..).2 fun t ht =>
        decide_eq_false (hne t (List.mem_of_getLast? ht))
    rw [Cursor.rest_ofTokens hne, Cursor.ofTokens, hfind, closeTokens, hopen]
    refine ⟨[], ?_⟩
    cases tokens.getLast? <;> rfl
  | some t =>
    obtain ⟨ht, front, back, rfl, hfront⟩ := List.find?_eq_some_iff_append.1 hfind
    obtain ⟨tail, htail⟩ := exists_closeTokens_eq (front ++ t :: back)
    obtain ⟨token, position⟩ := t
    obtain rfl : token = .endOfInput := of_decide_eq_true ht
    have hrest : (Cursor.ofTokens (front ++ ⟨.endOfInput, position⟩ :: back)).rest = front := by
      have hkept : ∀ t ∈ front, decide (t.token ≠ .endOfInput) = true := by simpa using hfront
      rw [Cursor.ofTokens, List.takeWhile_append_of_pos hkept]
      simp
    refine ⟨back ++ tail, ?_⟩
    rw [hrest, htail, Cursor.ofTokens, hfind, List.append_assoc]
    rfl

theorem exists_indexAfter (tokens : List Located) (calls : List Call) {depth : Nat}
    (hdepth : 4 * tokens.length + 1 < depth) :
    ∃ i, indexAfter depth (closeTokens tokens) calls = some i ∧
      Ahead (closeTokens tokens) ((Cursor.ofTokens tokens).after calls).stop i
        ((Cursor.ofTokens tokens).after calls).rest := by
  induction calls using List.reverseRecOn with
  | nil => exact ⟨0, rfl, ahead_closeTokens tokens⟩
  | append_singleton calls k ih =>
    obtain ⟨i, hi, hahead⟩ := ih
    have hle := Cursor.length_after_le tokens calls
    have hsuffices : 4 * ((Cursor.ofTokens tokens).after calls).rest.length + 1 < depth := by omega
    obtain ⟨j, hrun, hj, -⟩ := run_call hahead hsuffices k
    refine ⟨j, ?_, ?_⟩
    · rw [indexAfter] at hi ⊢
      rw [List.foldlM_append, hi]
      simp [hrun]
    · rw [Cursor.after, List.foldl_append]
      exact hj

/-- After any calls, the index is at the token that the cursor has in front, and a further call is
answered, as the cursor answers it. The index does not go back with it nor beyond the last token,
and with an expression that is read it moves on. -/
theorem exists_answer (tokens : List Located) (calls : List Call) {depth : Nat}
    (hdepth : 4 * tokens.length + 1 < depth) :
    ∃ i, indexAfter depth (closeTokens tokens) calls = some i ∧
      i < (closeTokens tokens).length ∧
      (closeTokens tokens)[i]? = some (frontToken ((Cursor.ofTokens tokens).after calls).stop
        ((Cursor.ofTokens tokens).after calls).rest) ∧
      ∀ k, ∃ answer j, call depth k (closeTokens tokens) i = some (answer, j) ∧
        answer = (((Cursor.ofTokens tokens).after calls).call k).1 ∧
        i ≤ j ∧ j < (closeTokens tokens).length ∧ ∀ e, answer = .ok (.inr e) → i < j := by
  obtain ⟨i, hi, hahead⟩ := exists_indexAfter tokens calls hdepth
  have hlt := hahead.add_length_lt
  refine ⟨i, hi, by omega, hahead.getElem?, fun k => ?_⟩
  have hle := Cursor.length_after_le tokens calls
  obtain ⟨j, hrun, hj, hlen⟩ := run_call hahead (Nat.lt_of_le_of_lt (by omega) hdepth) k
  have hlt' := hj.add_length_lt
  have hle' := (((Cursor.ofTokens tokens).after calls).suffix_call k).length_le
  refine ⟨_, j, hrun, rfl, by omega, by omega, fun e he => ?_⟩
  have hshort := Cursor.length_call_lt he
  omega

def partedTokens : List Located := [⟨.name "a", 0⟩, ⟨.endOfInput, 1⟩, ⟨.name "b", 2⟩]

/-- After an expression that is read and a query that fails at the end mark, the index is still
there, and goes on among the tokens. -/
theorem exists_answer_parted :
    4 * partedTokens.length + 1 < 14 ∧
      indexAfter 14 (closeTokens partedTokens) [.expression .lowest, .query] = some 1 ∧
      ∀ k, ∃ answer j, call 14 k (closeTokens partedTokens) 1 = some (answer, j) ∧
        1 ≤ j ∧ j < 4 := by
  have hdepth : 4 * partedTokens.length + 1 < 14 := by decide
  obtain ⟨i, hi, -, -, hnext⟩ := exists_answer partedTokens [.expression .lowest, .query] hdepth
  cases hi
  refine ⟨hdepth, rfl, fun k => ?_⟩
  obtain ⟨answer, j, hrun, -, hle, hlt, -⟩ := hnext k
  exact ⟨answer, j, hrun, hle, hlt⟩

end Scan

end RecordPath
