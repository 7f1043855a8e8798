import RecordPath.Proofs.Decimal.Digits
import RecordPath.Proofs.Query.WellFormed
import RecordPath.Proofs.Token.Lexing

namespace RecordPath

def Ends (rest : List Char) : Prop :=
  ∀ c cs, rest = c :: cs → c = ' ' ∨ c = ')' ∨ c = ']'

theorem ends_cons {c : Char} (h : c = ' ' ∨ c = ')' ∨ c = ']') (cs : List Char) :
    Ends (c :: cs) := by
  intro d ds hd
  cases hd
  exact h

theorem Ends.stays {p : Char → Bool} {rest : List Char} (h : Ends rest)
    (hp : p ' ' = false ∧ p ')' = false ∧ p ']' = false) : Stays p rest := by
  intro c cs hc
  rcases h c cs hc with rfl | rfl | rfl
  · exact hp.1
  · exact hp.2.1
  · exact hp.2.2

section Names

variable {name : String} {rest : List Char} {ts : List Token}

theorem exists_of_isIdentifier {cs : List Char} (h : isIdentifier cs = true) :
    ∃ c ds, cs = c :: ds ∧ Token.isNameStart c = true ∧ ∀ d ∈ ds, Token.isNamePart d = true := by
  cases cs with
  | nil => cases h
  | cons c ds =>
    simp only [isIdentifier, Bool.and_eq_true, List.all_eq_true] at h
    exact ⟨c, ds, rfl, h⟩

theorem cases_of_isFieldName (h : isFieldName name = true) :
    name = "*" ∨ (name ≠ "*" ∧ isIdentifier name.toList = true ∧
      Token.ofWord name.toList = .name name) := by
  by_cases hs : name = "*"
  · exact .inl hs
  · right
    simp only [isFieldName, hs, decide_false, Bool.false_or, Bool.and_eq_true,
      decide_eq_true_eq] at h
    obtain ⟨⟨hi, ht⟩, hf⟩ := h
    refine ⟨hs, hi, ?_⟩
    rw [Token.ofWord, if_neg ht, if_neg hf, String.ofList_toList]

theorem stays_slash_fieldName (h : isFieldName name = true) (rest : List Char) :
    Stays Symbol.slash.isExtendedBy (name.toList ++ rest) := by
  rcases cases_of_isFieldName h with rfl | ⟨-, hi, -⟩
  · exact stays_cons.2 rfl
  · obtain ⟨c, ds, hc, hstart, -⟩ := exists_of_isIdentifier hi
    rw [hc, List.cons_append, stays_cons, Bool.eq_false_iff]
    intro he
    rw [beq_iff_eq.1 he] at hstart
    cases hstart

theorem lexes_fieldName (hn : isFieldName name = true) (h : Lexes rest ts)
    (hrest : Stays Token.isNamePart rest) :
    Lexes (name.toList ++ rest) (Token.ofFieldName name :: ts) := by
  rcases cases_of_isFieldName hn with rfl | ⟨hne, hi, hw⟩
  · exact h.symbol .star fun _ _ _ => rfl
  · obtain ⟨c, ds, hc, hstart, hparts⟩ := exists_of_isIdentifier hi
    have hword := h.word hstart hparts hrest
    rw [Token.ofFieldName, if_neg hne, ← hw, hc]
    exact hword

end Names

theorem Scalar.literalText_int {n : Int64} (hn : 0 ≤ n.toInt) :
    ∃ k : Nat, n.toInt = k ∧ (int n).literalText.toList = Nat.toDigits 10 k := by
  obtain ⟨k, hk⟩ := Int.eq_ofNat_of_zero_le hn
  refine ⟨k, hk, ?_⟩
  rw [literalText, hk]
  exact Nat.toList_repr

theorem isDigit_of_mem_toDigits {k : Nat} : ∀ c ∈ Nat.toDigits 10 k, c.isDigit = true :=
  fun _ hc => Nat.isDigit_of_mem_toDigits (by decide) (by decide) hc

theorem lexes_int {n : Int64} (hn : 0 ≤ n.toInt) {rest : List Char} {ts : List Token}
    (h : Lexes rest ts) (hrest : Stays Token.isNumberPart rest) :
    Lexes ((Scalar.int n).literalText.toList ++ rest) (.int n :: ts) := by
  obtain ⟨k, hk, htext⟩ := Scalar.literalText_int hn
  have hdigits := isDigit_of_mem_toDigits (k := k)
  have hrun : Token.ofRun? (Nat.toDigits 10 k) = some (.int n) := by
    rw [Token.ofRun?_digits hdigits, Nat.ofDigitChars_ten_toDigits]
    -- the digits stand for an integer that is known to fit
    have hn' := signed?_toInt n
    rw [hk] at hn'
    exact congrArg (Option.map Token.int) hn'
  rw [htext]
  cases hd : Nat.toDigits 10 k with
  | nil => exact absurd hd Nat.toDigits_ne_nil
  | cons c cs =>
    rw [hd] at hdigits hrun
    refine h.number (hdigits c (by simp)) (fun d hd => ?_) hrun hrest
    simp [Token.isNumberPart, hdigits d (by simp [hd])]

theorem lexes_float {x : Float} (hx : Decimal.isFinite x = true)
    (hs : (Decimal.parts x).negative = false) (hr : ReadsBack x) {rest : List Char}
    {ts : List Token} (h : Lexes rest ts) (hrest : Stays Token.isNumberPart rest) :
    Lexes ((Scalar.float x).literalText.toList ++ rest) (.float x :: ts) := by
  obtain ⟨whole, fraction, htext, hne, hw, hf⟩ := Scalar.literalText_float hx hs
  rw [ReadsBack, htext] at hr
  rw [htext]
  cases whole with
  | nil => exact absurd rfl hne
  | cons c cs =>
    refine h.number (hw c (by simp)) (fun d hd => ?_) hr hrest
    rcases List.mem_append.1 hd with hd | hd
    · simp [Token.isNumberPart, hw d (by simp [hd])]
    · rcases List.mem_cons.1 hd with rfl | hd
      · rfl
      · simp [Token.isNumberPart, hf d hd]

theorem lexes_string {s : String} (hs : (Scalar.string s).wellFormed = true) {rest : List Char}
    {ts : List Token} (h : Lexes rest ts) :
    Lexes ((Scalar.string s).literalText.toList ++ rest) (.string s :: ts) := by
  have hquoted (q : Char) (hq : Token.isQuote q = true) (hmem : q ∉ s.toList) :
      Lexes (q :: s.toList ++ q :: rest) (.string s :: ts) := by
    have := h.quoted hq hmem
    rwa [String.ofList_toList] at this
  rw [Scalar.literalText]
  split
  -- a single quote in the string asks for double quotes around it
  · rename_i hsingle
    have hdouble : '\"' ∉ s.toList := by
      simpa [Scalar.wellFormed, hsingle] using hs
    simpa using hquoted '\"' rfl hdouble
  · rename_i hsingle
    simpa using hquoted '\'' rfl hsingle

theorem lexes_builtin (f : Builtin) {rest : List Char} {ts : List Token} (h : Lexes rest ts)
    (hrest : Stays Token.isNamePart rest) :
    Lexes (f.name.toList ++ rest) (.name f.name :: ts) := by
  have hident : isIdentifier f.name.toList = true := by cases f <;> decide
  have hword : Token.ofWord f.name.toList = .name f.name := by cases f <;> decide
  obtain ⟨c, ds, hc, hstart, hparts⟩ := exists_of_isIdentifier hident
  rw [← hword, hc]
  exact h.word hstart hparts hrest

theorem lexes_literal {v : Scalar} (hv : v.wellFormed = true)
    (hf : ∀ x ∈ (Expr.literal v).floats, ReadsBack x) {rest : List Char} {ts : List Token}
    (hrest : Ends rest) (h : Lexes rest ts) :
    Lexes (v.literalText.toList ++ rest) (v.token :: ts) := by
  have hword := hrest.stays (p := Token.isNamePart) (by decide)
  have hnumber := hrest.stays (p := Token.isNumberPart) (by decide)
  cases v with
  | bool b =>
    have hrue : ∀ d ∈ ['r', 'u', 'e'], Token.isNamePart d = true := List.all_eq_true.1 rfl
    have halse : ∀ d ∈ ['a', 'l', 's', 'e'], Token.isNamePart d = true := List.all_eq_true.1 rfl
    cases b with
    | true => exact h.word (c := 't') (by decide) hrue hword
    | false => exact h.word (c := 'f') (by decide) halse hword
  | string s => exact lexes_string hv h
  | int n => exact lexes_int (by simpa [Scalar.wellFormed] using hv) h hnumber
  | float x =>
    simp only [Scalar.wellFormed, Bool.and_eq_true, Bool.not_eq_true'] at hv
    exact lexes_float hv.1 hv.2 (hf x (by simp [Expr.floats])) h hnumber

namespace Expr

theorem front_parenthesized {e : Expr} (h : ∃ c cs, e.text.toList = c :: cs ∧ c ≠ '=') :
    ∃ c cs, (parenthesized e e.text).toList = c :: cs ∧ c ≠ '=' := by
  rw [parenthesized]
  split
  · exact ⟨'(', e.text.toList ++ [')'], by simp, by decide⟩
  · exact h

theorem front_text {e : Expr} (hw : e.wellFormed = true) :
    ∃ c cs, e.text.toList = c :: cs ∧ c ≠ '=' := by
  have hdigit {cs : List Char} (hne : cs ≠ []) (hcs : ∀ c ∈ cs, c.isDigit = true)
      (ds : List Char) : ∃ c es, cs ++ ds = c :: es ∧ c ≠ '=' := by
    obtain ⟨c, cs, rfl⟩ := List.exists_cons_of_ne_nil hne
    refine ⟨c, cs ++ ds, rfl, ?_⟩
    rintro rfl
    exact absurd (hcs '=' (by simp)) (by decide)
  induction e with
  | literal v =>
    cases v with
    | bool b => cases b <;> exact ⟨_, _, rfl, by decide⟩
    | string s =>
      rw [text, Scalar.literalText]
      split
      · exact ⟨'"', s.toList ++ ['"'], by simp, by decide⟩
      · exact ⟨'\'', s.toList ++ ['\''], by simp, by decide⟩
    | int n =>
      obtain ⟨k, -, htext⟩ := Scalar.literalText_int (by
        simpa [wellFormed, Scalar.wellFormed] using hw)
      rw [text, htext, ← List.append_nil (Nat.toDigits 10 k)]
      exact hdigit Nat.toDigits_ne_nil isDigit_of_mem_toDigits []
    | float x =>
      simp only [wellFormed, Scalar.wellFormed, Bool.and_eq_true, Bool.not_eq_true'] at hw
      obtain ⟨whole, fraction, htext, hne, hd, -⟩ := Scalar.literalText_float hw.1 hw.2
      rw [text, htext]
      exact hdigit hne hd _
  | property name => exact ⟨'@', name.toList, by simp [text], by decide⟩
  | call f arguments =>
    cases f with
    | length => exact ⟨'l', _, by simp [text, Builtin.name]; rfl, by decide⟩
    | position => exact ⟨'p', _, by simp [text, Builtin.name]; rfl, by decide⟩
  | unary op e ih =>
    cases op <;> exact ⟨_, (parenthesized e e.text).toList,
      by simp [text, UnaryOp.text, UnaryOp.symbol, Symbol.chars]; rfl, by decide⟩
  | binary op l r ihl ihr =>
    simp only [wellFormed, Bool.and_eq_true] at hw
    obtain ⟨c, cs, htext, hc⟩ := front_parenthesized (ihl hw.1)
    exact ⟨c, cs ++ (" " ++ op.text ++ " " ++ parenthesized r r.text).toList,
      by simp [text, htext], hc⟩

theorem lexes_parenthesized {e : Expr}
    (ih : ∀ {rest ts}, Ends rest → Lexes rest ts → Lexes (e.text.toList ++ rest) (e.tokens ++ ts))
    {rest : List Char} {ts : List Token} (hrest : Ends rest) (h : Lexes rest ts) :
    Lexes ((parenthesized e e.text).toList ++ rest) (bracketed e e.tokens ++ ts) := by
  rw [parenthesized, bracketed]
  split
  · have hclose := h.symbol .rightParen fun _ _ _ => rfl
    have hinner := ih (ends_cons (by simp) _) hclose
    simpa [Symbol.chars] using hinner.symbol .leftParen fun _ _ _ => rfl
  · exact ih hrest h

theorem lexes_text {e : Expr} (hw : e.wellFormed = true) (hf : ∀ x ∈ e.floats, ReadsBack x)
    {rest : List Char} {ts : List Token} (hrest : Ends rest) (h : Lexes rest ts) :
    Lexes (e.text.toList ++ rest) (e.tokens ++ ts) := by
  induction e generalizing rest ts with
  | literal v => exact lexes_literal hw hf hrest h
  | property name =>
    have hname := lexes_fieldName hw h (hrest.stays (by decide))
    simpa [text, tokens, Symbol.chars] using hname.symbol .atSign fun _ _ _ => rfl
  | call f arguments =>
    have hclose := h.symbol .rightParen fun _ _ _ => rfl
    have hopen := hclose.symbol .leftParen fun _ _ _ => rfl
    have hname := lexes_builtin f hopen (stays_cons.2 rfl)
    simp only [wellFormed, List.isEmpty_iff] at hw
    simpa [text, tokens, argumentsText, hw, Symbol.chars] using hname
  | unary op e ih =>
    have hoperand := lexes_parenthesized (fun hr => ih hw hf hr) hrest h
    -- a bang would join an equals sign after it
    obtain ⟨c, cs, htext, hc⟩ := front_parenthesized (front_text (e := e) hw)
    have hstays : Stays op.symbol.isExtendedBy ((parenthesized e e.text).toList ++ rest) := by
      rw [htext, List.cons_append, stays_cons]
      cases op with
      | not => exact beq_eq_false_iff_ne.2 hc
      | plus | minus => rfl
    simpa [text, tokens, UnaryOp.text] using hoperand.symbol op.symbol hstays
  | binary op l r ihl ihr =>
    simp only [wellFormed, Bool.and_eq_true] at hw
    have hright := lexes_parenthesized
      (fun hr => ihr hw.2 (fun x hx => hf x (List.mem_append_right _ hx)) hr) hrest h
    have hblank : op.symbol.isExtendedBy ' ' = false := by
      generalize op.symbol = s
      cases s <;> rfl
    have hop := (hright.blank.symbol op.symbol (stays_cons.2 hblank)).blank
    have hleft := lexes_parenthesized
      (fun hr => ihl hw.1 (fun x hx => hf x (List.mem_append_left _ hx)) hr)
      (ends_cons (.inl rfl) _) hop
    simpa [text, tokens, BinaryOp.text] using hleft

end Expr

def EndsPath (rest : List Char) : Prop := ∀ c cs, rest = c :: cs → c = ' '

namespace Step

/-- What may follow a step of a path. A dot or a name would join one that comes next, and the slash
of the root another slash. -/
def Stops (s : Step) (rest : List Char) : Prop :=
  match s with
  | .root => Stays Symbol.slash.isExtendedBy rest
  | .field _ => Stays Token.isNamePart rest
  | .self => Stays Symbol.dot.isExtendedBy rest
  | .descend | .key _ => True

theorem lexes_separator {previous : Option Step} {rest : List Char} {ts : List Token}
    (h : Lexes rest ts) (hrest : Stays Symbol.slash.isExtendedBy rest) :
    Lexes ((separator previous).toList ++ rest) (slashAfter previous ++ ts) := by
  rcases previous with - | (- | _ | - | _ | -)
  case some.field | some.key | some.self =>
    simpa [separator, slashAfter, Symbol.chars] using h.symbol .slash hrest
  all_goals simpa [separator, slashAfter] using h

theorem lexes_textAfter (s : Step) (previous : Option Step) (hw : s.wellFormed = true)
    (hf : ∀ x ∈ s.floats, ReadsBack x) {rest : List Char} {ts : List Token}
    (hrest : s.Stops rest) (h : Lexes rest ts) :
    Lexes ((s.textAfter previous).toList ++ rest) (s.tokensAfter previous ++ ts) := by
  cases s with
  | root => simpa [textAfter, tokensAfter, Symbol.chars] using h.symbol .slash hrest
  | field name =>
    have hname := lexes_fieldName hw h hrest
    simpa [textAfter, tokensAfter] using lexes_separator hname (stays_slash_fieldName hw rest)
  | descend =>
    have hmark := h.symbol .doubleSlash fun _ _ _ => rfl
    rcases previous with - | (- | _ | - | _ | -)
    case some.root => simpa [textAfter, tokensAfter, Symbol.chars] using hmark.blank
    all_goals simpa [textAfter, tokensAfter, Symbol.chars] using hmark
  | key e =>
    have hclose := h.symbol .rightBracket fun _ _ _ => rfl
    have hinner := Expr.lexes_text hw hf (ends_cons (by simp) _) hclose
    simpa [textAfter, tokensAfter, Symbol.chars] using
      hinner.symbol .leftBracket fun _ _ _ => rfl
  | self =>
    have hdot := h.symbol .dot hrest
    have hsep : Lexes ((separator previous).toList ++ (Symbol.dot.chars ++ rest))
        (slashAfter previous ++ .symbol .dot :: ts) := lexes_separator hdot (stays_cons.2 rfl)
    simpa [textAfter, tokensAfter, Symbol.chars] using hsep

theorem stops_of_endsPath (s : Step) {rest : List Char} (h : EndsPath rest) : s.Stops rest := by
  have hstays (p : Char → Bool) (hp : p ' ' = false) : Stays p rest := by
    intro c cs hc
    rw [h c cs hc]
    exact hp
  cases s with
  | root | self => exact hstays _ rfl
  | field name => exact hstays _ (by decide)
  | descend | key e => trivial

theorem stops_textAfter (s : Step) {t : Step} (hw : t.wellFormed = true) (ht : t ≠ .root)
    (rest : List Char) : s.Stops ((t.textAfter (some s)).toList ++ rest) := by
  have hmarks : Token.isNamePart '/' = false ∧ Token.isNamePart '[' = false := by decide
  cases s with
  | descend | key e => trivial
  | root =>
    change Stays Symbol.slash.isExtendedBy _
    cases t with
    | root => exact absurd rfl ht
    | field name => simpa [textAfter, separator] using stays_slash_fieldName hw rest
    | descend | key e | self => simp [textAfter, separator, stays_cons, Symbol.isExtendedBy]
  | field name =>
    change Stays Token.isNamePart _
    cases t with
    | root => exact absurd rfl ht
    | field _ | descend | key _ | self => simp [textAfter, separator, stays_cons, hmarks]
  | self =>
    change Stays Symbol.dot.isExtendedBy _
    cases t with
    | root => exact absurd rfl ht
    | field _ | descend | key _ | self =>
      simp [textAfter, separator, stays_cons, Symbol.isExtendedBy]

end Step

theorem Path.lexes_textAfter {steps : List Step} (previous : Option Step)
    (hw : ∀ s ∈ steps, s.wellFormed = true) (hroot : .root ∉ steps.tail)
    (hf : ∀ s ∈ steps, ∀ x ∈ s.floats, ReadsBack x) {rest : List Char} {ts : List Token}
    (hrest : EndsPath rest) (h : Lexes rest ts) :
    Lexes ((textAfter previous steps).toList ++ rest) (tokensAfter previous steps ++ ts) := by
  induction steps generalizing previous with
  | nil => exact h
  | cons s steps ih =>
    have hnext : .root ∉ steps.tail := fun hm => hroot (List.mem_of_mem_tail hm)
    have htail := ih (some s) (fun t ht => hw t (.tail _ ht)) hnext (fun t ht => hf t (.tail _ ht))
    -- what comes after the step is the next one, or else what ends the path
    have hstops : s.Stops ((textAfter (some s) steps).toList ++ rest) := by
      cases steps with
      | nil => exact s.stops_of_endsPath hrest
      | cons t steps =>
        have ht : t ≠ .root := fun he => hroot (he ▸ .head _)
        have := s.stops_textAfter (hw t (by simp)) ht ((textAfter (some t) steps).toList ++ rest)
        simpa [textAfter] using this
    have hs := s.lexes_textAfter previous (hw s (.head _)) (hf s (.head _)) hstops htail
    simpa [textAfter, tokensAfter] using hs

namespace Query

variable {branches : List Path}

theorem lexes_branches (hne : branches ≠ []) (hw : ∀ p ∈ branches, p.wellFormed = true)
    (hf : ∀ p ∈ branches, ∀ s ∈ p.steps, ∀ x ∈ s.floats, ReadsBack x) :
    Lexes ([' ', '|', ' '].intercalate (branches.map fun p => p.text.toList))
      (tokensOf branches) := by
  induction branches with
  | nil => exact absurd rfl hne
  | cons p rest ih =>
    have hp := hw p (.head _)
    simp only [Path.wellFormed, Bool.and_eq_true, List.all_eq_true, Bool.not_eq_true',
      List.contains_eq_mem, decide_eq_false_iff_not] at hp
    have hpath {more : List Char} {ts : List Token} (hmore : EndsPath more)
        (h : Lexes more ts) : Lexes (p.text.toList ++ more) (p.tokens ++ ts) :=
      Path.lexes_textAfter none hp.1.2 hp.2 (hf p (.head _)) hmore h
    cases rest with
    | nil => simpa [tokensOf] using hpath (by intro c cs h; cases h) Lexes.nil
    | cons q rest =>
      have htail := ih (by simp) (fun r hr => hw r (.tail _ hr)) (fun r hr => hf r (.tail _ hr))
      have hbar := htail.blank.symbol .bar (stays_cons.2 rfl)
      have hfirst := hpath (by intro c cs h; cases h; rfl) hbar.blank
      simpa [tokensOf, Symbol.chars, List.intercalate] using hfirst

/-- The text of a query is cut into the tokens of the query. -/
theorem tokenize_text {q : Query} (hw : q.wellFormed = true) (hf : ∀ x ∈ q.floats, ReadsBack x) :
    ∃ ls, tokenize q.text = .ok ls ∧ ls.map Located.token = q.tokens := by
  simp only [wellFormed, Bool.and_eq_true, List.all_eq_true, Bool.not_eq_true',
    List.isEmpty_eq_false_iff] at hw
  have h := lexes_branches hw.1 hw.2 fun p hp s hs x hx =>
    hf x (List.mem_flatMap.2 ⟨p, hp, List.mem_flatMap.2 ⟨s, hs, hx⟩⟩)
  have htext : q.text.toList =
      [' ', '|', ' '].intercalate (q.branches.map fun p => p.text.toList) := by
    simp [text, String.toList_intercalate]
    rfl
  rw [← htext] at h
  exact h 0

end Query

end RecordPath
