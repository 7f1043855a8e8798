import RecordPath.Token.Lexer

namespace RecordPath

open Text

namespace Lexer

variable {l l' : Lexer} {t : Located} {e : LexError}

theorem drain_of_error (h : l.next = (.error e, l')) : l.drain = .error e := by
  rw [drain]
  split
  · rename_i h'
    cases h.symm.trans h'
    rfl
  · rename_i h'
    cases h.symm.trans h'

theorem drain_of_end (h : l.next = (.ok t, l')) (ht : t.token = .endOfInput) :
    l.drain = .ok [] := by
  rw [drain]
  split
  · rename_i h'
    cases h.symm.trans h'
  · rename_i h'
    cases h.symm.trans h'
    rw [dif_pos ht]

theorem drain_of_token (h : l.next = (.ok t, l')) (ht : t.token ≠ .endOfInput) :
    l.drain = l'.drain.map (t :: ·) := by
  rw [drain]
  split
  · rename_i h'
    cases h.symm.trans h'
  · rename_i h'
    cases h.symm.trans h'
    rw [dif_neg ht]

theorem drain_congr (h : l.next = l'.next) : l.drain = l'.drain := by
  rcases hr : l'.next with ⟨r, l₁⟩
  rw [hr] at h
  cases r with
  | error e => rw [drain_of_error h, drain_of_error hr]
  | ok t =>
    by_cases ht : t.token = .endOfInput
    · rw [drain_of_end h ht, drain_of_end hr ht]
    · rw [drain_of_token h ht, drain_of_token hr ht]

theorem skipBlanks_of_isBlank {c : Char} (hc : isBlank c = true) (cs : List Char) (offset : Nat) :
    (Lexer.mk (c :: cs) offset).skipBlanks = (Lexer.mk cs (offset + c.utf8Size)).skipBlanks := by
  simp [skipBlanks, advance, hc, Nat.add_assoc]

theorem skipBlanks_of_not_isBlank {c : Char} (hc : isBlank c = false) (cs : List Char)
    (offset : Nat) : (Lexer.mk (c :: cs) offset).skipBlanks = ⟨c :: cs, offset⟩ := by
  simp [skipBlanks, advance, hc]

end Lexer

def Stays (p : Char → Bool) (rest : List Char) : Prop := ∀ c cs, rest = c :: cs → p c = false

theorem stays_nil (p : Char → Bool) : Stays p [] := by
  intro c cs h
  cases h

theorem stays_cons {p : Char → Bool} {c : Char} {cs : List Char} :
    Stays p (c :: cs) ↔ p c = false := by
  constructor
  · exact fun h => h c cs rfl
  · rintro h d ds hd
    cases hd
    exact h

theorem takeWhile_of_stays {p : Char → Bool} {run rest : List Char} (hrun : ∀ c ∈ run, p c)
    (hrest : Stays p rest) : (run ++ rest).takeWhile p = run := by
  rw [List.takeWhile_append_of_pos hrun]
  cases rest with
  | nil => simp
  | cons c cs => simp [stays_cons.1 hrest]

namespace Token

theorem isBlank_of_isQuote {c : Char} (h : isQuote c = true) : isBlank c = false := by
  simp only [isQuote, Bool.or_eq_true, beq_iff_eq] at h
  rcases h with rfl | rfl <;> decide

theorem isBlank_eq_false {c : Char} (hlow : 33 ≤ c.toNat) (hhigh : c.toNat ≤ 126) :
    isBlank c = false := by
  simp [isBlank]
  omega

theorem isQuote_eq_false {c : Char} (hs : c.toNat ≠ 39) (hd : c.toNat ≠ 34) :
    isQuote c = false := by
  rw [Bool.eq_false_iff]
  intro h
  simp only [isQuote, Bool.or_eq_true, beq_iff_eq] at h
  rcases h with rfl | rfl
  · exact hs rfl
  · exact hd rfl

theorem toNat_of_isNameStart {c : Char} (h : isNameStart c = true) :
    c = '_' ∨ (65 ≤ c.toNat ∧ c.toNat ≤ 90) ∨ (97 ≤ c.toNat ∧ c.toNat ≤ 122) := by
  simp only [isNameStart, Bool.or_eq_true, beq_iff_eq] at h
  rcases h with h | h
  · right
    change (decide ('A'.val ≤ c.val ∧ c.val ≤ 'Z'.val) ||
      (decide ('a'.val ≤ c.val) && decide (c.val ≤ 'z'.val))) = true at h
    simpa [UInt32.le_iff_toNat_le] using h
  · exact .inl h

theorem isNameStart_facts {c : Char} (h : isNameStart c = true) :
    isBlank c = false ∧ isQuote c = false := by
  rcases toNat_of_isNameStart h with rfl | hn
  · decide
  · exact ⟨isBlank_eq_false (by omega) (by omega), isQuote_eq_false (by omega) (by omega)⟩

theorem isDigit_facts {c : Char} (h : c.isDigit = true) :
    isBlank c = false ∧ isQuote c = false ∧ isNameStart c = false := by
  have hn : 48 ≤ c.toNat ∧ c.toNat ≤ 57 := by
    simpa [Char.isDigit, UInt32.le_iff_toNat_le] using h
  refine ⟨isBlank_eq_false (by omega) (by omega), isQuote_eq_false (by omega) (by omega), ?_⟩
  rw [Bool.eq_false_iff]
  intro hs
  -- digits lie below all letters and the underscore
  rcases toNat_of_isNameStart hs with rfl | hs
  · revert hn
    decide
  · omega

theorem ofRun?_digits {cs : List Char} (h : ∀ c ∈ cs, c.isDigit = true) :
    ofRun? cs = (signed? (Nat.ofDigitChars 10 cs 0)).map .int := by
  have htake : cs.takeWhile Char.isDigit = cs := by
    simpa using takeWhile_of_stays h (stays_nil Char.isDigit)
  have hdrop : (cs ++ []).dropWhile Char.isDigit = [] := List.dropWhile_append_of_pos h
  rw [List.append_nil] at hdrop
  rw [ofRun?, htake, hdrop]

theorem ofRun?_point {whole fraction : List Char} (hw : ∀ c ∈ whole, c.isDigit = true)
    (hf : ∀ c ∈ fraction, c.isDigit = true) :
    ofRun? (whole ++ '.' :: fraction) = some (.float (Float.ofScientific
      (Nat.ofDigitChars 10 (whole ++ fraction) 0) true fraction.length)) := by
  have htake : (whole ++ '.' :: fraction).takeWhile Char.isDigit = whole := by
    rw [List.takeWhile_append_of_pos hw]
    simp
  have hdrop : (whole ++ '.' :: fraction).dropWhile Char.isDigit = '.' :: fraction := by
    rw [List.dropWhile_append_of_pos hw]
    rfl
  rw [ofRun?, htake, hdrop]
  exact if_pos (List.all_eq_true.2 hf)

theorem ne_end_of_ofRun? {cs : List Char} {t : Token} (h : ofRun? cs = some t) :
    t ≠ .endOfInput := by
  rintro rfl
  unfold ofRun? at h
  dsimp only at h
  split at h
  · obtain ⟨w, -, hw⟩ := Option.map_eq_some_iff.1 h
    cases hw
  · split at h <;> cases h

end Token

/-- No symbol begins like any other token. -/
theorem Symbol.front_chars (s : Symbol) :
    ∃ c cs, s.chars = c :: cs ∧ isBlank c = false ∧ Token.isQuote c = false ∧
      Token.isNameStart c = false ∧ c.isDigit = false := by
  cases s <;> exact ⟨_, _, rfl, by decide, by decide, by decide, by decide⟩

def Symbol.isExtendedBy : Symbol → Char → Bool
  | .slash, c => c == '/'
  | .dot, c => c == '.'
  | .bar, c => c == '|'
  | .bang, c | .less, c | .greater, c => c == '='
  | _, _ => false

theorem Symbol.ofFront?_append {s : Symbol} {rest : List Char} (h : Stays s.isExtendedBy rest) :
    ofFront? (s.chars ++ rest) = some s := by
  cases rest with
  | nil => cases s <;> decide
  | cons c cs =>
    have hc := stays_cons.1 h
    -- two characters are tried first, and they spell no other symbol than this one
    have hrival (t : Symbol) (ht : t.chars = (s.chars ++ c :: cs).take 2) : t = s := by
      have hlen : t.chars.length = 2 := by
        rw [ht]
        cases s <;> rfl
      cases t <;> first
        | exact absurd hlen (by decide)
        | cases s <;> simp_all [chars, isExtendedBy] <;> exact hc ht.symm
    rw [ofFront?]
    cases h2 : ofChars? ((s.chars ++ c :: cs).take 2) with
    | some t =>
      rw [hrival t (ofChars?_eq_some.1 h2)]
      rfl
    | none =>
      cases s <;> first
        | rfl
        | cases h2

namespace Token

/-- The lexeme is at the front of a text, and is taken as the token. -/
structure Fronts (t : Token) (lexeme rest : List Char) : Prop where
  exists_front : ∃ c cs, lexeme ++ rest = c :: cs ∧ isBlank c = false ∧
    front c cs = (.ok t, lexeme)
  ne_end : t ≠ .endOfInput

variable {c : Char} {cs rest : List Char}

/-- A symbol is read as such unless it makes a longer one with what follows. -/
theorem fronts_symbol (s : Symbol) (hrest : Stays s.isExtendedBy rest) :
    Fronts (.symbol s) s.chars rest := by
  have hs := Symbol.ofFront?_append hrest
  obtain ⟨c, cs, hc, hb, hq, hn, hd⟩ := s.front_chars
  have hcs : s.chars ++ rest = c :: (cs ++ rest) := by rw [hc, List.cons_append]
  rw [hcs] at hs
  refine ⟨⟨c, cs ++ rest, hcs, hb, ?_⟩, nofun⟩
  simp [front, hq, hn, hd, hs]

theorem fronts_word (hc : isNameStart c = true) (hcs : ∀ d ∈ cs, isNamePart d = true)
    (hrest : Stays isNamePart rest) : Fronts (ofWord (c :: cs)) (c :: cs) rest := by
  obtain ⟨hb, hq⟩ := isNameStart_facts hc
  refine ⟨⟨c, cs ++ rest, rfl, hb, ?_⟩, ?_⟩
  · simp [front, hq, hc, takeWhile_of_stays hcs hrest]
  · unfold ofWord
    split
    · nofun
    · split <;> nofun

theorem fronts_number {t : Token} (hc : c.isDigit = true) (hcs : ∀ d ∈ cs, isNumberPart d = true)
    (ht : ofRun? (c :: cs) = some t) (hrest : Stays isNumberPart rest) :
    Fronts t (c :: cs) rest := by
  obtain ⟨hb, hq, hn⟩ := isDigit_facts hc
  refine ⟨⟨c, cs ++ rest, rfl, hb, ?_⟩, ne_end_of_ofRun? ht⟩
  simp [front, hq, hn, hc, takeWhile_of_stays hcs hrest, ht]

theorem fronts_quoted {q : Char} (hq : isQuote q = true) (hcs : q ∉ cs) (rest : List Char) :
    Fronts (.string (String.ofList cs)) (q :: cs ++ [q]) rest := by
  have hstays : Stays (· != q) (q :: rest) := stays_cons.2 (by simp)
  have hrun : (cs ++ q :: rest).takeWhile (· != q) = cs :=
    takeWhile_of_stays (fun d hd => bne_iff_ne.2 fun he => hcs (he ▸ hd)) hstays
  refine ⟨⟨q, cs ++ q :: rest, by simp, isBlank_of_isQuote hq, ?_⟩, nofun⟩
  simp [front, hq, hrun]

end Token

def Lexes (cs : List Char) (ts : List Token) : Prop :=
  ∀ offset, ∃ ls, (Lexer.mk cs offset).drain = .ok ls ∧ ls.map Located.token = ts

/-- What is cut off at the front of a text that starts with no blank. -/
theorem Lexer.drain_of_fronts {t : Token} {lexeme rest : List Char} (h : t.Fronts lexeme rest)
    (offset : Nat) :
    (Lexer.mk (lexeme ++ rest) offset).drain =
      (Lexer.mk rest (offset + byteLength lexeme)).drain.map (⟨t, offset⟩ :: ·) := by
  obtain ⟨⟨c, cs, hcs, hc, hf⟩, ht⟩ := h
  have hnext : (Lexer.mk (lexeme ++ rest) offset).next =
      (.ok ⟨t, offset⟩, ⟨rest, offset + byteLength lexeme⟩) := by
    rw [hcs, Lexer.next, Lexer.skipBlanks_of_not_isBlank hc, Lexer.first]
    simp only [hf, Lexer.advance, ← hcs, List.drop_left]
  exact drain_of_token hnext ht

theorem Lexer.drain_of_blanks {blanks : List Char} (h : ∀ c ∈ blanks, isBlank c = true)
    (rest : List Char) (offset : Nat) :
    (Lexer.mk (blanks ++ rest) offset).drain =
      (Lexer.mk rest (offset + byteLength blanks)).drain := by
  induction blanks generalizing offset with
  | nil => rfl
  | cons c blanks ih =>
    obtain ⟨hc, hblanks⟩ := List.forall_mem_cons.1 h
    have hnext : (Lexer.mk (c :: blanks ++ rest) offset).next =
        (Lexer.mk (blanks ++ rest) (offset + c.utf8Size)).next := by
      rw [Lexer.next, List.cons_append, Lexer.skipBlanks_of_isBlank hc, Lexer.next]
    rw [drain_congr hnext, ih hblanks, byteLength_cons, Nat.add_assoc]

namespace Lexes

variable {cs rest lexeme : List Char} {t : Token} {ts : List Token}

theorem nil : Lexes [] [] := fun _ => ⟨[], Lexer.drain_of_end rfl rfl, rfl⟩

theorem blank (h : Lexes cs ts) : Lexes (' ' :: cs) ts := by
  intro offset
  have hblank : ∀ c ∈ [' '], isBlank c = true := List.forall_mem_singleton.2 rfl
  have hdrain := Lexer.drain_of_blanks hblank cs offset
  rw [List.singleton_append] at hdrain
  rw [hdrain]
  exact h _

theorem cons (h : Lexes rest ts) (hf : t.Fronts lexeme rest) :
    Lexes (lexeme ++ rest) (t :: ts) := by
  intro offset
  -- the lexeme says how far the lexer goes, and the rest is cut as from there
  obtain ⟨ls, hd, hls⟩ := h (offset + byteLength lexeme)
  refine ⟨⟨t, offset⟩ :: ls, ?_, by rw [List.map_cons, hls]⟩
  rw [Lexer.drain_of_fronts hf, hd]
  rfl

theorem symbol (h : Lexes rest ts) (s : Symbol) (hrest : Stays s.isExtendedBy rest) :
    Lexes (s.chars ++ rest) (.symbol s :: ts) :=
  h.cons (Token.fronts_symbol s hrest)

theorem word (h : Lexes rest ts) {c : Char} (hc : Token.isNameStart c = true)
    (hcs : ∀ d ∈ cs, Token.isNamePart d = true) (hrest : Stays Token.isNamePart rest) :
    Lexes (c :: cs ++ rest) (Token.ofWord (c :: cs) :: ts) :=
  h.cons (Token.fronts_word hc hcs hrest)

theorem number (h : Lexes rest ts) {c : Char} (hc : c.isDigit = true)
    (hcs : ∀ d ∈ cs, Token.isNumberPart d = true) (ht : Token.ofRun? (c :: cs) = some t)
    (hrest : Stays Token.isNumberPart rest) : Lexes (c :: cs ++ rest) (t :: ts) :=
  h.cons (Token.fronts_number hc hcs ht hrest)

theorem quoted (h : Lexes rest ts) {q : Char} (hq : Token.isQuote q = true) (hcs : q ∉ cs) :
    Lexes (q :: cs ++ q :: rest) (.string (String.ofList cs) :: ts) := by
  have hstring := h.cons (Token.fronts_quoted hq hcs rest)
  rwa [List.append_assoc, List.singleton_append] at hstring

end Lexes

end RecordPath
