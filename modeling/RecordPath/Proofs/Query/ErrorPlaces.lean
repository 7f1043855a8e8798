import RecordPath.Proofs.Query.Calls
import RecordPath.Proofs.Query.Spelling

namespace RecordPath

open Text

namespace Token

variable {t : Token} {lexeme cs : List Char}

theorem space_notMem_of_isDigit {digits : List Char} (h : ∀ c ∈ digits, c.isDigit = true) :
    ' ' ∉ digits := fun hmem => absurd (h _ hmem) (by decide)

theorem space_notMem_queryFloat {x : Float} (hs : (Decimal.parts x).negative = false) :
    ' ' ∉ (queryFloat.text x).toList := by
  cases hx : Decimal.isFinite x with
  | true =>
    obtain ⟨v, whole, fraction, -, hw, hf, -, htext⟩ := Decimal.exists_spells_queryFloat hx hs
    have hwhole := space_notMem_of_isDigit hw
    have hfraction := space_notMem_of_isDigit hf
    rcases htext with ⟨htext, -⟩ | htext
    · rwa [htext]
    · rw [htext, List.mem_append, List.mem_cons]
      simp [hwhole, hfraction]
  | false =>
    unfold Decimal.isFinite at hx
    unfold Decimal.Layout.text
    generalize Decimal.parts x = p at hx hs
    obtain ⟨negative, magnitude⟩ := p
    obtain rfl : negative = false := hs
    cases magnitude with
    | nan => decide
    | infinite => decide
    | zero => cases hx
    | finite m q => cases hx

theorem Spells.text_ne (h : t.Spells lexeme) : t.text ≠ "end of input" := by
  intro he
  -- strings begin with a quote, and no other token is shown with a space in it
  have hspace : ' ' ∈ t.text.toList := by
    rw [he]
    decide
  cases h with
  | string =>
    have hhead := congrArg (·.toList.head?) he
    simp [text] at hhead
  | symbol s =>
    revert hspace
    cases s <;> decide
  | bool b =>
    revert hspace
    cases b <;> decide
  | @name c cs hc hcs =>
    rw [text, String.toList_ofList, List.mem_cons] at hspace
    rcases hspace with rfl | hspace
    · exact absurd hc (by decide)
    · exact absurd (hcs _ hspace) (by decide)
  | @int n digits hne hdigits hn =>
    have hnonneg : 0 ≤ n.toInt := hn ▸ Int.natCast_nonneg _
    obtain ⟨k, -, htext⟩ := Scalar.literalText_int hnonneg
    replace hspace : ' ' ∈ (Scalar.int n).literalText.toList := hspace
    rw [htext] at hspace
    exact space_notMem_of_isDigit isDigit_of_mem_toDigits hspace
  | float => exact space_notMem_queryFloat (Decimal.negative_ofScientific _ _) hspace

end Token

/-- What a fault says of the text that begins where it was found. -/
inductive CompileFault.Heads : CompileFault → List Char → Prop
  | lexical {fault : LexFault} {cs : List Char} (h : fault.Heads cs) : Heads (.lexical fault) cs
  | unexpectedToken {found : Token} {lexeme cs : List Char} (h : found.Spells lexeme)
      (hcs : lexeme <+: cs) : Heads (.unexpectedToken found) cs
  | unexpectedEnd : Heads (.unexpectedToken .endOfInput) []
  | unknownFunction {name : String} {cs : List Char} (h : name.toList <+: cs) :
      Heads (.unknownFunction name) cs
  | arityMismatch {name : String} {cs : List Char} (h : name.toList <+: cs)
      (expected found : Nat) : Heads (.arityMismatch name expected found) cs
  | missingBracket (cs : List Char) : Heads .missingBracket cs
  | missingParen (cs : List Char) : Heads .missingParen cs
  | missingOperand {operator : Symbol} {cs : List Char} (h : operator.chars <+: cs) :
      Heads (.missingOperand operator) cs
  | emptyQuery (cs : List Char) : Heads .emptyQuery cs

inductive Located.Placed (cs : List Char) : Located → Prop
  | token {t : Located} (h : Lexer.Stands cs t) : Placed cs t
  | ends : Placed cs ⟨.endOfInput, byteLength cs⟩

theorem Token.Spells.heads {t : Token} {lexeme rest : List Char} {fault : CompileFault}
    (ht : t.Spells lexeme) (h : fault.ShowsAt t) : fault.Heads (lexeme ++ rest) := by
  have hprefix := List.prefix_append lexeme rest
  cases h with
  | unexpectedToken => exact .unexpectedToken ht hprefix
  | unknownFunction name =>
    cases ht
    exact .unknownFunction (by rwa [String.toList_ofList])
  | arityMismatch name expected found =>
    cases ht
    exact .arityMismatch (by rwa [String.toList_ofList]) expected found
  | missingBracket => exact .missingBracket _
  | missingParen => exact .missingParen _
  | missingOperand s =>
    cases ht
    exact .missingOperand hprefix
  | emptyQuery => exact .emptyQuery _

namespace Located.Placed

variable {cs : List Char} {t : Located} {fault : CompileFault}

theorem exists_heads (ht : Placed cs t) (h : fault.ShowsAt t.token) :
    ∃ rest, BeginsAt cs t.position rest ∧ fault.Heads rest := by
  cases ht with
  | token ht =>
    obtain ⟨lexeme, rest, hbegins, hspells⟩ := ht
    exact ⟨_, hbegins, hspells.heads h⟩
  | ends =>
    refine ⟨[], ⟨cs, (List.append_nil cs).symm, rfl⟩, ?_⟩
    cases h with
    | unexpectedToken => exact .unexpectedEnd
    | missingBracket => exact .missingBracket []
    | missingParen => exact .missingParen []
    | emptyQuery => exact .emptyQuery []

end Located.Placed

namespace CompileError

variable {text : String} {e : CompileError}

/-- Reading fails at a token that stands in the text, or at its end. -/
theorem exists_heads_of_query {ts : List Located} (hts : ∀ t ∈ ts, Lexer.Stands text.toList t)
    (h : (Cursor.mk ts text.utf8ByteSize).query.1 = .error e) :
    ∃ rest, BeginsAt text.toList e.position rest ∧ e.fault.Heads rest := by
  -- read side by side with itself, the text is matched at placed tokens only
  let ρ (t t' : Located) : Prop := t' = t ∧ t.Placed text.toList
  have hself : (Cursor.mk ts text.utf8ByteSize).Aligned ρ ⟨ts, text.utf8ByteSize⟩ :=
    { alignment := ⟨fun ht => congrArg Located.token ht.1, rfl,
        utf8ByteSize_eq text ▸ .ends⟩
      rest := List.forall₂_same.2 fun t ht => ⟨rfl, .token (hts t ht)⟩ }
  have hquery := hself.query.1
  rw [h] at hquery
  obtain ⟨t, -, ⟨-, ht⟩, hf, hposition⟩ := hquery.exists_of_error
  rw [hposition]
  exact ht.exists_heads hf

theorem exists_heads_of_compile (h : compile text = .error e) :
    ∃ rest, BeginsAt text.toList e.position rest ∧ e.fault.Heads rest := by
  cases Lexer.drains_ofString text with
  | tokens hls _ hstands =>
    rw [compile_of_tokenize_ok hls] at h
    exact exists_heads_of_query hstands h
  | fault he _ hrest hf =>
    rw [compile_of_tokenize_error he] at h
    cases h
    exact ⟨_, hrest, .lexical hf⟩

end CompileError

theorem Text.BeginsAt.exists_append {text : String} {position : Nat} {rest : List Char}
    (h : BeginsAt text.toList position rest) :
    ∃ front back : String, text = front ++ back ∧ position = front.utf8ByteSize ∧
      back.toList = rest := by
  obtain ⟨front, hchars, hposition⟩ := h
  refine ⟨String.ofList front, String.ofList rest, ?_, ?_, String.toList_ofList⟩
  · rw [← String.ofList_append, ← hchars, String.ofList_toList]
  · rw [hposition, utf8ByteSize_eq, String.toList_ofList]

/-- The position of an error lies between two characters of the query, and the fault says what
stands behind it. Only at the end of the query is the end of the text found. -/
theorem CompileError.heads_of_compile {text : String} {e : CompileError}
    (h : compile text = .error e) :
    e.position ≤ text.utf8ByteSize ∧ String.Pos.Raw.IsValid text ⟨e.position⟩ ∧
      (∃ front back : String, text = front ++ back ∧ e.position = front.utf8ByteSize ∧
        e.fault.Heads back.toList) ∧
      ∀ found, e.fault = .unexpectedToken found → found.text = "end of input" →
        e.position = text.utf8ByteSize := by
  obtain ⟨rest, hbegins, hheads⟩ := exists_heads_of_compile h
  obtain ⟨front, back, htext, hposition, hback⟩ := hbegins.exists_append
  have hlength := hbegins.length
  rw [← utf8ByteSize_eq] at hlength
  refine ⟨by omega, ?_, ⟨front, back, htext, hposition, hback ▸ hheads⟩, fun found hf hend => ?_⟩
  · exact String.Pos.Raw.isValid_iff_exists_append.2
      ⟨front, back, htext, String.Pos.Raw.ext hposition⟩
  · rw [hf] at hheads
    cases hheads with
    | unexpectedToken hspells => exact absurd hend hspells.text_ne
    | unexpectedEnd => exact hlength

/-- An unknown function behind a character of two bytes. -/
theorem CompileError.heads_of_compile_unknown :
    let text := "[ 'é' = size()]"
    let e : CompileError := ⟨.unknownFunction "size", 9⟩
    compile text = .error e ∧ e.position ≤ text.utf8ByteSize ∧
      String.Pos.Raw.IsValid text ⟨e.position⟩ ∧
      ∃ front back : String, text = front ++ back ∧ e.position = front.utf8ByteSize ∧
        e.fault.Heads back.toList := by
  intro text e
  have h : compile text = .error e := by decide +kernel
  obtain ⟨hle, hvalid, hheads, -⟩ := heads_of_compile h
  exact ⟨h, hle, hvalid, hheads⟩

end RecordPath
