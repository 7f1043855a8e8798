import Mathlib.Data.List.TakeWhile
import RecordPath.Proofs.Token.Lexing

namespace RecordPath

open Text

namespace Token

/-- The characters spell the token. A run with more than one point in it spells nothing. -/
inductive Spells : Token → List Char → Prop
  | symbol (s : Symbol) : Spells (.symbol s) s.chars
  | bool (b : Bool) {word : List Char} (h : word.map Char.toLower = (boolText b).toList) :
      Spells (.bool b) word
  | name {c : Char} {cs : List Char} (hc : isNameStart c = true)
      (hcs : ∀ d ∈ cs, isNamePart d = true)
      (hname : ∀ b, (c :: cs).map Char.toLower ≠ (boolText b).toList) :
      Spells (.name (String.ofList (c :: cs))) (c :: cs)
  | string {quote : Char} {content : List Char} (hq : isQuote quote = true)
      (h : quote ∉ content) :
      Spells (.string (String.ofList content)) (quote :: content ++ [quote])
  | int {n : Int64} {digits : List Char} (hne : digits ≠ [])
      (hdigits : ∀ c ∈ digits, c.isDigit = true)
      (hn : n.toInt = (Nat.ofDigitChars 10 digits 0 : Nat)) : Spells (.int n) digits
  | float {whole fraction : List Char} (hne : whole ≠ [])
      (hwhole : ∀ c ∈ whole, c.isDigit = true) (hfraction : ∀ c ∈ fraction, c.isDigit = true) :
      Spells (.float (Float.ofScientific (Nat.ofDigitChars 10 (whole ++ fraction) 0) true
        fraction.length)) (whole ++ '.' :: fraction)

/-- Whether the lexeme of a token would go on with a character that stood behind it. -/
def Extends : Token → Char → Prop
  | .name _, c | .bool _, c => isNamePart c = true
  | .int _, c | .float _, c => isNumberPart c = true
  | .symbol s, c => ∃ t : Symbol, t.chars = s.chars ++ [c]
  | .string _, _ | .endOfInput, _ => False

def EndsBefore (t : Token) (rest : List Char) : Prop := ∀ c cs, rest = c :: cs → ¬ t.Extends c

end Token

namespace Symbol

theorem length_chars_le (s : Symbol) : s.chars.length ≤ 2 := by cases s <;> decide

theorem exists_of_isExtendedBy {s : Symbol} {c : Char} (h : s.isExtendedBy c = true) :
    ∃ t : Symbol, t.chars = s.chars ++ [c] := by
  cases s with
  | slash => exact ⟨.doubleSlash, by rw [beq_iff_eq.1 h]; rfl⟩
  | dot => exact ⟨.doubleDot, by rw [beq_iff_eq.1 h]; rfl⟩
  | bar => exact ⟨.doubleBar, by rw [beq_iff_eq.1 h]; rfl⟩
  | bang => exact ⟨.notEqual, by rw [beq_iff_eq.1 h]; rfl⟩
  | less => exact ⟨.lessEqual, by rw [beq_iff_eq.1 h]; rfl⟩
  | greater => exact ⟨.greaterEqual, by rw [beq_iff_eq.1 h]; rfl⟩
  | _ => cases h

/-- The symbol that is taken from the front of a text is there, and no longer one is. -/
theorem of_ofFront? {cs : List Char} {s : Symbol} (h : ofFront? cs = some s) :
    ∃ rest, cs = s.chars ++ rest ∧ (Token.symbol s).EndsBefore rest := by
  unfold ofFront? at h
  cases h2 : ofChars? (cs.take 2) with
  | some t =>
    rw [h2] at h
    cases h
    have hs := ofChars?_eq_some.1 h2
    refine ⟨cs.drop 2, by rw [hs, List.take_append_drop], ?_⟩
    rintro c ds hdrop ⟨t, ht⟩
    -- there are no symbols of three characters
    have hlength := congrArg List.length ht
    have htwo : s.chars.length = 2 := by
      have := congrArg List.length hdrop
      rw [hs, List.length_take]
      rw [List.length_drop, List.length_cons] at this
      omega
    have := t.length_chars_le
    rw [List.length_append, List.length_singleton] at hlength
    omega
  | none =>
    rw [h2] at h
    have hs := ofChars?_eq_some.1 h
    refine ⟨cs.drop 1, by rw [hs, List.take_append_drop], ?_⟩
    rintro c ds hdrop ⟨t, ht⟩
    have htwo : cs.take 2 = s.chars ++ [c] := by
      rw [List.take_add_one (i := 1), hs, ← List.head?_drop, hdrop]
      rfl
    rw [htwo, ← ht, ofChars?_eq_some.2 rfl] at h2
    cases h2

end Symbol

theorem stays_dropWhile (p : Char → Bool) (cs : List Char) : Stays p (cs.dropWhile p) := by
  intro c ds h
  have hhead := List.head?_dropWhile_not p cs
  rw [h] at hhead
  exact hhead

namespace Token

variable {t : Token} {c : Char} {cs lexeme rest : List Char}

theorem isAlpha_of_isAlpha_toLower (h : c.toLower.isAlpha = true) : c.isAlpha = true := by
  unfold Char.toLower at h
  split at h
  · rename_i hupper
    exact (Bool.or_eq_true _ _).mpr (.inl (decide_eq_true hupper))
  · exact h

/-- In any mixture of cases, a constant is spelled as names are. -/
theorem isWord_of_constant {b : Bool} {word : List Char}
    (h : word.map Char.toLower = (boolText b).toList) :
    ∃ c cs, word = c :: cs ∧ isNameStart c = true ∧ ∀ d ∈ cs, isNamePart d = true := by
  have hletters : ∀ c ∈ word, c.isAlpha = true := by
    intro c hc
    have hlower : c.toLower ∈ (boolText b).toList := h ▸ List.mem_map_of_mem hc
    have hall : (boolText b).toList.all Char.isAlpha = true := by cases b <;> decide
    exact isAlpha_of_isAlpha_toLower (List.all_eq_true.1 hall _ hlower)
  cases word with
  | nil => cases b <;> cases h
  | cons c cs =>
    obtain ⟨hc, hcs⟩ := List.forall_mem_cons.1 hletters
    refine ⟨c, cs, rfl, by rw [isNameStart, hc, Bool.true_or], fun d hd => ?_⟩
    rw [isNamePart, Char.isAlphanum, hcs d hd, Bool.true_or, Bool.true_or]

theorem ofWord_cases (word : List Char) :
    (∃ b, ofWord word = .bool b ∧ word.map Char.toLower = (boolText b).toList) ∨
      (ofWord word = .name (String.ofList word) ∧
        ∀ b, word.map Char.toLower ≠ (boolText b).toList) := by
  unfold ofWord
  split
  · exact .inl ⟨true, rfl, ‹_›⟩
  · split
    · exact .inl ⟨false, rfl, ‹_›⟩
    · refine .inr ⟨rfl, fun b => ?_⟩
      cases b with
      | true => assumption
      | false => assumption

theorem ofWord_of_constant {b : Bool} {word : List Char}
    (h : word.map Char.toLower = (boolText b).toList) : ofWord word = .bool b := by
  unfold ofWord
  rw [h]
  cases b <;> rfl

theorem EndsBefore.stays {p : Char → Bool} (h : t.EndsBefore rest)
    (hp : ∀ c, p c = true → t.Extends c) : Stays p rest :=
  fun c cs hcs => Bool.eq_false_iff.2 fun hc => h c cs hcs (hp c hc)

theorem endsBefore_of_stays {p : Char → Bool} (h : Stays p rest)
    (hp : ∀ c, t.Extends c → p c = true) : t.EndsBefore rest := by
  intro c cs hcs hc
  have hstays := h c cs hcs
  rw [hp c hc] at hstays
  cases hstays

/-- A lexeme that ends before the rest of the text is taken as its token. -/
theorem Spells.fronts (h : t.Spells lexeme) (he : t.EndsBefore rest) : t.Fronts lexeme rest := by
  cases h with
  | symbol s => exact fronts_symbol s (he.stays fun _ => Symbol.exists_of_isExtendedBy)
  | bool b hword =>
    obtain ⟨c, cs, rfl, hc, hcs⟩ := isWord_of_constant hword
    rw [← ofWord_of_constant hword]
    exact fronts_word hc hcs (he.stays fun _ => id)
  | @name c cs hc hcs hname =>
    obtain ⟨b, -, hb⟩ | ⟨hword, -⟩ := ofWord_cases (c :: cs)
    · exact absurd hb (hname b)
    · rw [← hword]
      exact fronts_word hc hcs (he.stays fun _ => id)
  | string hq hcontent => exact fronts_quoted hq hcontent rest
  | @int n digits hne hdigits hn =>
    obtain ⟨c, cs, rfl⟩ := List.exists_cons_of_ne_nil hne
    have hrun : ofRun? (c :: cs) = some (.int n) := by
      rw [ofRun?_digits hdigits, ← hn, signed?_toInt]
      rfl
    refine fronts_number (hdigits c List.mem_cons_self) (fun d hd => ?_) hrun
      (he.stays fun _ => id)
    rw [isNumberPart, hdigits d (List.mem_cons_of_mem c hd), Bool.true_or]
  | @float whole fraction hne hwhole hfraction =>
    obtain ⟨c, cs, rfl⟩ := List.exists_cons_of_ne_nil hne
    refine fronts_number (hwhole c List.mem_cons_self) (fun d hd => ?_)
      (ofRun?_point hwhole hfraction) (he.stays fun _ => id)
    rw [isNumberPart]
    rcases List.mem_append.1 hd with hd | hd
    · rw [hwhole d (List.mem_cons_of_mem c hd), Bool.true_or]
    · rcases List.mem_cons.1 hd with rfl | hd
      · rfl
      · rw [hfraction d hd, Bool.true_or]

theorem spells_ofWord (hc : isNameStart c = true) (hcs : ∀ d ∈ cs, isNamePart d = true)
    (hrest : Stays isNamePart rest) :
    (ofWord (c :: cs)).Spells (c :: cs) ∧ (ofWord (c :: cs)).EndsBefore rest := by
  obtain ⟨b, hword, hb⟩ | ⟨hword, hname⟩ := ofWord_cases (c :: cs)
  · rw [hword]
    exact ⟨.bool b hb, endsBefore_of_stays hrest fun _ => id⟩
  · rw [hword]
    exact ⟨.name hc hcs hname, endsBefore_of_stays hrest fun _ => id⟩

/-- A run that is a number consists of digits, or of digits with one point among them. -/
theorem spells_ofRun? (hc : c.isDigit = true) (hcs : ∀ d ∈ cs, isNumberPart d = true)
    (hrest : Stays isNumberPart rest) (h : ofRun? (c :: cs) = some t) :
    t.Spells (c :: cs) ∧ t.EndsBefore rest := by
  have hparts := List.takeWhile_append_dropWhile (p := Char.isDigit) (l := c :: cs)
  have hdigits : ∀ d ∈ (c :: cs).takeWhile Char.isDigit, d.isDigit = true :=
    fun d hd => List.mem_takeWhile_imp hd
  have hne : (c :: cs).takeWhile Char.isDigit ≠ [] := by
    rw [List.takeWhile_cons_of_pos hc]
    exact List.cons_ne_nil _ _
  unfold ofRun? at h
  dsimp only at h
  split at h
  · rename_i hwhole
    rw [hwhole, List.append_nil] at hparts
    obtain ⟨n, hn, rfl⟩ := Option.map_eq_some_iff.1 h
    rw [hparts] at hn hdigits
    exact ⟨.int (List.cons_ne_nil c cs) hdigits (toInt_of_signed? hn),
      endsBefore_of_stays hrest fun _ => id⟩
  · rename_i point fraction hdrop
    split at h
    · rename_i hfraction
      cases h
      -- what ends the digits is part of the number, and so it is a point
      have hpoint : point = '.' := by
        have hstays := stays_dropWhile Char.isDigit (c :: cs) point fraction hdrop
        have hmem : point ∈ c :: cs :=
          (List.dropWhile_suffix Char.isDigit).subset (hdrop ▸ List.mem_cons_self)
        rcases List.mem_cons.1 hmem with rfl | hmem
        · rw [hc] at hstays
          cases hstays
        · have hnumber := hcs point hmem
          rwa [isNumberPart, hstays, Bool.false_or, beq_iff_eq] at hnumber
      subst hpoint
      have hspells : Spells (.float (Float.ofScientific
          (Nat.ofDigitChars 10 ((c :: cs).takeWhile Char.isDigit ++ fraction) 0) true
            fraction.length)) ((c :: cs).takeWhile Char.isDigit ++ '.' :: fraction) :=
        .float hne hdigits (List.all_eq_true.1 hfraction)
      rw [← hdrop, hparts] at hspells
      exact ⟨hspells, endsBefore_of_stays hrest fun _ => id⟩
    · cases h

/-- What is taken from the front of a text spells its token, and ends before the rest. -/
theorem of_front (h : front c cs = (.ok t, lexeme)) :
    ∃ rest, c :: cs = lexeme ++ rest ∧ t.Spells lexeme ∧ t.EndsBefore rest := by
  unfold front at h
  split at h
  · rename_i hquote
    split at h <;> cases h
    rename_i hmem
    have hcontent : c ∉ cs.takeWhile (· != c) := fun hmem => by
      simpa using List.mem_takeWhile_imp hmem
    -- the string goes on up to the next quote of the same kind
    obtain ⟨d, rest, hdrop⟩ : ∃ d rest, cs.dropWhile (· != c) = d :: rest := by
      refine List.exists_cons_of_ne_nil fun hnil => ?_
      have hall := List.dropWhile_eq_nil_iff.1 hnil c hmem
      simp at hall
    have hd : d = c := by
      have hstays := stays_dropWhile (· != c) cs d rest hdrop
      simpa using hstays
    refine ⟨rest, ?_, .string hquote hcontent, fun _ _ _ => id⟩
    rw [List.cons_append, List.cons_append, List.append_assoc, List.singleton_append, ← hd, ← hdrop,
      hd, List.takeWhile_append_dropWhile]
  · split at h
    · rename_i hstart
      cases h
      refine ⟨cs.dropWhile isNamePart, ?_, spells_ofWord hstart
        (fun d hd => List.mem_takeWhile_imp hd) (stays_dropWhile _ _)⟩
      rw [List.cons_append, List.takeWhile_append_dropWhile]
    · split at h
      · rename_i hdigit
        dsimp only at h
        split at h <;> cases h
        rename_i hrun
        refine ⟨cs.dropWhile isNumberPart, ?_, spells_ofRun? hdigit
          (fun d hd => List.mem_takeWhile_imp hd) (stays_dropWhile _ _) hrun⟩
        rw [List.cons_append, List.takeWhile_append_dropWhile]
      · split at h <;> cases h
        rename_i s hs
        obtain ⟨rest, hcs, he⟩ := Symbol.of_ofFront? hs
        exact ⟨rest, hcs, .symbol s, he⟩

end Token

namespace Token

variable {t t' : Token} {c : Char} {lexeme lexeme' rest rest' : List Char}

theorem Fronts.lexeme_ne_nil (h : t.Fronts lexeme rest) : lexeme ≠ [] := by
  obtain ⟨⟨c, cs, -, -, hf⟩, -⟩ := h
  exact front_ne_nil hf

theorem Fronts.stays (h : t.Fronts lexeme rest) : Stays isBlank (lexeme ++ rest) := by
  obtain ⟨⟨c, cs, hcs, hc, -⟩, -⟩ := h
  rw [hcs]
  exact stays_cons.2 hc

/-- Only one token is at the front of a text. -/
theorem Fronts.unique (h : t.Fronts lexeme rest) (h' : t'.Fronts lexeme' rest')
    (he : lexeme ++ rest = lexeme' ++ rest') : t = t' ∧ lexeme = lexeme' := by
  obtain ⟨⟨c, cs, hcs, -, hf⟩, -⟩ := h
  obtain ⟨⟨c', cs', hcs', -, hf'⟩, -⟩ := h'
  obtain ⟨rfl, rfl⟩ := List.cons.inj ((hcs.symm.trans he).trans hcs')
  cases hf.symm.trans hf'
  exact ⟨rfl, rfl⟩

theorem isBlank_of_isNamePart (h : isNamePart c = true) : isBlank c = false := by
  rw [isNamePart, Char.isAlphanum, Bool.or_eq_true, Bool.or_eq_true] at h
  rcases h with (halpha | hdigit) | hunderscore
  · exact (isNameStart_facts (by rw [isNameStart, halpha, Bool.true_or])).1
  · exact (isDigit_facts hdigit).1
  · rw [beq_iff_eq.1 hunderscore]
    decide

/-- No lexeme goes on with a blank. -/
theorem Extends.isBlank (h : t.Extends c) : isBlank c = false := by
  have hnumber (h : isNumberPart c = true) : Text.isBlank c = false := by
    rw [isNumberPart, Bool.or_eq_true] at h
    rcases h with hdigit | hpoint
    · exact (isDigit_facts hdigit).1
    · rw [beq_iff_eq.1 hpoint]
      decide
  cases t with
  | name | bool => exact isBlank_of_isNamePart h
  | int | float => exact hnumber h
  | symbol s =>
    obtain ⟨t, ht⟩ := h
    have hall : t.chars.any Text.isBlank = false := by cases t <;> decide
    have hmem : c ∈ t.chars := ht ▸ List.mem_append_right _ (List.mem_singleton_self c)
    exact Bool.eq_false_iff.2 (List.any_eq_false.1 hall c hmem)
  | string | endOfInput => exact h.elim

theorem EndsBefore.congr (h : t.EndsBefore rest) (he : rest'.head? = rest.head?) :
    t.EndsBefore rest' := by
  intro c cs hcs
  rw [hcs, List.head?_cons] at he
  obtain ⟨ds, hds⟩ := List.head?_eq_some_iff.1 he.symm
  exact h c ds hds

end Token

end RecordPath
