import RecordPath.Proofs.Query.Alignment
import RecordPath.Proofs.Token.Places

namespace RecordPath

inductive Call where
  | query
  /-- An expression whose operators outside parentheses bind tighter than `floor`. -/
  | expression (floor : Tier)
  deriving DecidableEq, Repr

namespace Cursor

def call (c : Cursor) : Call → Except CompileError (Query ⊕ Expr) × Cursor
  | .query => (c.query.1.map .inl, c.query.2)
  | .expression floor => ((c.expression floor).1.map .inr, (c.expression floor).2)

/-- The answers to calls that are made one after the other, whether they fail or not. -/
def answers (c : Cursor) : List Call → List (Except CompileError (Query ⊕ Expr))
  | [] => []
  | call :: calls => (c.call call).1 :: (c.call call).2.answers calls

section Aligned

variable {ρ : Located → Located → Prop} {c c' : Cursor}

theorem Aligned.call (h : c.Aligned ρ c') (call : Call) :
    RecordPath.Aligned ρ (c.call call).1 (c'.call call).1 ∧
      (c.call call).2.Aligned ρ (c'.call call).2 := by
  cases call with
  | query => exact ⟨h.query.1.map Sum.inl, h.query.2⟩
  | expression floor => exact ⟨(h.expression floor).1.map Sum.inr, (h.expression floor).2⟩

theorem Aligned.answers (h : c.Aligned ρ c') (calls : List Call) :
    List.Forall₂ (RecordPath.Aligned ρ) (c.answers calls) (c'.answers calls) := by
  induction calls generalizing c c' with
  | nil => exact .nil
  | cons call calls ih => exact .cons (h.call call).1 (ih (h.call call).2)

end Aligned

end Cursor

def Located.SameToken (t t' : Located) : Prop := t'.token = t.token

namespace Located.SameToken

variable {ts us : List Located}

theorem alignment (stop stop' : Nat) : Alignment SameToken stop stop' := ⟨id, rfl⟩

theorem forall₂_of_map (h : us.map Located.token = ts.map Located.token) :
    List.Forall₂ SameToken ts us := by
  rw [← List.forall₂_eq_eq_eq, List.forall₂_map_left_iff, List.forall₂_map_right_iff] at h
  exact h.flip

theorem takeWhile (p : Token → Bool) (h : List.Forall₂ SameToken ts us) :
    List.Forall₂ SameToken (ts.takeWhile (p ·.token)) (us.takeWhile (p ·.token)) := by
  induction h with
  | nil => exact .nil
  | @cons t u ts us ht _ ih =>
    have htoken : u.token = t.token := ht
    rw [List.takeWhile_cons, List.takeWhile_cons, htoken]
    split
    · exact .cons ht ih
    · exact .nil

theorem aligned_ofTokens (h : us.map Located.token = ts.map Located.token) :
    (Cursor.ofTokens ts).Aligned SameToken (Cursor.ofTokens us) where
  alignment := alignment _ _
  rest := takeWhile (· ≠ .endOfInput) (forall₂_of_map h)

end Located.SameToken

/-- The same outcome, save that an error at the end of the text stands elsewhere. -/
inductive SameButAtEnd (stop stop' : Nat) {α : Type} :
    Except CompileError α → Except CompileError α → Prop
  | same (x : Except CompileError α) : SameButAtEnd stop stop' x x
  | atEnd {fault : CompileFault} (h : fault.ShowsAt .endOfInput) :
    SameButAtEnd stop stop' (.error ⟨fault, stop⟩) (.error ⟨fault, stop'⟩)

inductive Located.SameOrEnd (stop stop' : Nat) : Located → Located → Prop
  | same (t : Located) : SameOrEnd stop stop' t t
  | ends : SameOrEnd stop stop' ⟨.endOfInput, stop⟩ ⟨.endOfInput, stop'⟩

namespace Located.SameOrEnd

variable {stop stop' : Nat} {α : Type}

theorem alignment (stop stop' : Nat) : Alignment (SameOrEnd stop stop') stop stop' where
  token h := by cases h <;> rfl
  ends := .ends

theorem aligned (ts : List Located) (stop stop' : Nat) :
    (Cursor.mk ts stop).Aligned (SameOrEnd stop stop') ⟨ts, stop'⟩ where
  alignment := alignment stop stop'
  rest := List.forall₂_same.2 fun t _ => .same t

theorem sameButAtEnd {x y : Except CompileError α} (h : Aligned (SameOrEnd stop stop') x y) :
    SameButAtEnd stop stop' x y := by
  cases h with
  | ok a => exact .same _
  | error ht hf =>
    cases ht with
    | same t => exact .same _
    | ends => exact .atEnd hf

end Located.SameOrEnd

theorem Aligned.mapError_fault {ρ : Located → Located → Prop} {α : Type}
    {x y : Except CompileError α} (h : Aligned ρ x y) :
    y.mapError CompileError.fault = x.mapError CompileError.fault := by
  cases h <;> rfl

namespace Cursor

variable {text : String} {ts : List Located}

/-- No reading of tokens comes to a fault of the lexer. -/
theorem query_ne_ofLexError (c : Cursor) (e : LexError) :
    c.query.1 ≠ .error (.ofLexError e) := by
  intro h
  have hself := (Located.SameOrEnd.aligned c.rest c.stop c.stop).query.1
  change RecordPath.Aligned _ c.query.1 _ at hself
  rw [h] at hself
  obtain ⟨t, -, -, hf, -⟩ := hself.exists_of_error
  replace hf : (CompileFault.lexical e.fault).ShowsAt t.token := hf
  cases hf

theorem ofTokens_eq (h : ∀ t ∈ ts, t.token ≠ .endOfInput) :
    ofTokens ts = ⟨ts, (ofTokens ts).stop⟩ := by
  have hts : ts.takeWhile (·.token ≠ .endOfInput) = ts :=
    List.takeWhile_eq_self_iff.2 fun t ht => decide_eq_true (h t ht)
  exact congrArg (Cursor.mk · (ofTokens ts).stop) hts

theorem ofTokens_append_end (h : ∀ t ∈ ts, t.token ≠ .endOfInput) (stop : Nat) :
    ofTokens (ts ++ [⟨.endOfInput, stop⟩]) = ⟨ts, stop⟩ := by
  have hts : ∀ t ∈ ts, decide (t.token ≠ .endOfInput) = true := fun t ht => decide_eq_true (h t ht)
  have hfind : ts.find? (·.token = .endOfInput) = none := by simpa using h
  rw [ofTokens, List.takeWhile_append_of_pos hts, List.find?_append, hfind]
  simp

end Cursor

theorem CompileError.ofLexError_injective : Function.Injective ofLexError := by
  rintro ⟨fault, position⟩ ⟨fault', position'⟩ h
  cases h
  rfl

section Compile

variable {text : String} {ts : List Located}

theorem ne_end_of_tokenize (h : tokenize text = .ok ts) : ∀ t ∈ ts, t.token ≠ .endOfInput := by
  intro t ht
  cases Lexer.drains_ofString text with
  | tokens hls _ hstands =>
    cases hls.symm.trans h
    exact (hstands t ht).ne_end
  | fault he => cases he.symm.trans h

theorem Cursor.ofText_of_tokenize_ok (h : tokenize text = .ok ts) :
    ofText text = .ok ⟨ts, text.utf8ByteSize⟩ := by
  rw [ofText, h]

theorem compile_of_tokenize_ok (h : tokenize text = .ok ts) :
    compile text = (Cursor.mk ts text.utf8ByteSize).query.1 := by
  rw [compile, Cursor.ofText_of_tokenize_ok h]
  rfl

theorem compile_of_tokenize_error {e : LexError} (h : tokenize text = .error e) :
    compile text = .error (.ofLexError e) := by
  rw [compile, Cursor.ofText, h]
  rfl

/-- A text that is cut into tokens has no fault of the lexer, whatever else is wrong with it. -/
theorem compile_eq_ofLexError_iff (e : LexError) :
    compile text = .error (.ofLexError e) ↔ tokenize text = .error e := by
  cases h : tokenize text with
  | ok ts =>
    rw [compile_of_tokenize_ok h]
    exact ⟨fun hq => absurd hq (Cursor.query_ne_ofLexError _ e), nofun⟩
  | error e' =>
    rw [compile_of_tokenize_error h, Except.error.injEq, Except.error.injEq,
      CompileError.ofLexError_injective.eq_iff]

/-- Whether the end mark is among the tokens that are taken or put behind them makes no odds. -/
theorem Cursor.ofText_eq_drainToEnd (text : String) :
    Cursor.ofText text = ((Lexer.ofString text).drainToEnd.map Cursor.ofTokens).mapError
      CompileError.ofLexError := by
  rw [ofText, tokenize]
  cases Lexer.drains_ofString text with
  | tokens h hend hstands =>
    rw [h, hend, Text.utf8ByteSize_eq]
    exact congrArg Except.ok
      (ofTokens_append_end (fun t ht => (hstands t ht).ne_end) _).symm
  | fault h hend =>
    rw [h, hend]
    rfl

end Compile

/-- Cursors over the same tokens give the same answers to all calls, save for the positions of
errors. A text is read like its tokens: it has a fault of the lexer just if it cannot be cut into
tokens, and otherwise only errors at the end stand elsewhere. -/
theorem Cursor.answers_of_map_token :
    (∀ ts us : List Located, us.map Located.token = ts.map Located.token → ∀ calls : List Call,
      ((ofTokens us).answers calls).map (Except.mapError CompileError.fault) =
        ((ofTokens ts).answers calls).map (Except.mapError CompileError.fault)) ∧
    ∀ text : String,
      ofText text = ((Lexer.ofString text).drainToEnd.map ofTokens).mapError
        CompileError.ofLexError ∧
      (∀ e, compile text = .error (.ofLexError e) ↔ tokenize text = .error e) ∧
      ∀ ts, tokenize text = .ok ts →
        SameButAtEnd (ofTokens ts).stop text.utf8ByteSize (ofTokens ts).query.1 (compile text) ∧
        ∃ c, ofText text = .ok c ∧ ∀ calls : List Call,
          List.Forall₂ (SameButAtEnd (ofTokens ts).stop text.utf8ByteSize)
            ((ofTokens ts).answers calls) (c.answers calls) := by
  refine ⟨fun ts us h calls => ?_, fun text =>
    ⟨ofText_eq_drainToEnd text, compile_eq_ofLexError_iff, fun ts hts => ?_⟩⟩
  · have hanswers := (Located.SameToken.aligned_ofTokens h).answers calls
    rw [← List.forall₂_eq_eq_eq, List.forall₂_map_left_iff, List.forall₂_map_right_iff]
    exact hanswers.flip.imp fun _ _ halike => halike.mapError_fault
  · have hcursor := Located.SameOrEnd.aligned ts (ofTokens ts).stop text.utf8ByteSize
    rw [← ofTokens_eq (ne_end_of_tokenize hts)] at hcursor
    rw [compile_of_tokenize_ok hts]
    refine ⟨Located.SameOrEnd.sameButAtEnd hcursor.query.1, _, ofText_of_tokenize_ok hts,
      fun calls => ?_⟩
    exact (hcursor.answers calls).imp fun _ _ => Located.SameOrEnd.sameButAtEnd

/-- At the end of a text in which a bracket is left open, and blanks follow. -/
theorem Cursor.answers_of_map_token_unclosed :
    let ts : List Located := [⟨.name "a", 0⟩, ⟨.symbol .leftBracket, 1⟩, ⟨.name "b", 2⟩]
    let us : List Located := [⟨.name "a", 7⟩, ⟨.symbol .leftBracket, 7⟩, ⟨.name "b", 0⟩]
    let calls : List Call := [.query, .expression .lowest, .query]
    us.map Located.token = ts.map Located.token ∧
      ((ofTokens us).answers calls).map (Except.mapError CompileError.fault) =
        ((ofTokens ts).answers calls).map (Except.mapError CompileError.fault) ∧
      tokenize "a[b  " = .ok ts ∧ (ofTokens ts).query.1 = .error ⟨.missingBracket, 3⟩ ∧
      compile "a[b  " = .error ⟨.missingBracket, 5⟩ ∧
      SameButAtEnd 3 5 (ofTokens ts).query.1 (compile "a[b  ") := by
  intro ts us calls
  have htokens : tokenize "a[b  " = .ok ts := by decide +kernel
  have hsame : us.map Located.token = ts.map Located.token := rfl
  exact ⟨hsame, answers_of_map_token.1 ts us hsame calls, htokens, by decide +kernel,
    by decide +kernel, ((answers_of_map_token.2 "a[b  ").2.2 ts htokens).1⟩

/-- The lexer's fault comes first, although the text is no query up to there. -/
example : compile "] = 'a" = .error (.ofLexError ⟨.unterminatedString, 4⟩) := by decide +kernel

end RecordPath
