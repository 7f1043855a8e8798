import Mathlib.Order.Monotone.Basic
import RecordPath.Proofs.Token.Places
import RecordPath.Query.Cursor

namespace RecordPath

open Text

theorem Token.lexeme_of_front_error {c : Char} {cs lexeme : List Char} {fault : LexFault}
    (h : front c cs = (.error fault, lexeme)) :
    lexeme <+: c :: cs ∧
      (lexeme = [] ∧ fault = .unexpectedCharacter c ∨
        lexeme ≠ [] ∧ ∀ d, fault ≠ .unexpectedCharacter d) := by
  unfold front at h
  split at h
  · split at h <;> cases h
    exact ⟨List.prefix_rfl, .inr ⟨List.cons_ne_nil c cs, nofun⟩⟩
  · split at h
    · cases h
    · split at h
      · dsimp only at h
        split at h <;> cases h
        exact ⟨(List.prefix_cons_inj c).2 (List.takeWhile_prefix _),
          .inr ⟨List.cons_ne_nil c _, nofun⟩⟩
      · split at h <;> cases h
        exact ⟨List.nil_prefix, .inl ⟨rfl, rfl⟩⟩

namespace Lexer

def after (l : Lexer) (n : ℕ) : Lexer := (fun l => l.next.2)^[n] l

/-- What the call with that number comes to; the first one has the number 0. -/
def answer (l : Lexer) (n : ℕ) : Except LexError Located := (l.after n).next.1

def behind (cs : List Char) (k : ℕ) : Lexer := ⟨cs.drop k, byteLength (cs.take k)⟩

def position (l : Lexer) (cs : List Char) : ℕ := cs.length - l.rest.length

def isPassed : Except LexError Located → Bool
  | .ok t => t.token ≠ .endOfInput
  | .error ⟨.unexpectedCharacter _, _⟩ => false
  | .error ⟨.unterminatedString, _⟩ | .error ⟨.invalidNumber _, _⟩ => true

theorem isPassed_ok_iff {t : Located} : isPassed (.ok t) = true ↔ t.token ≠ .endOfInput :=
  decide_eq_true_iff

theorem isPassed_error_iff {e : LexError} :
    isPassed (.error e) = true ↔ ∀ c, e.fault ≠ .unexpectedCharacter c := by
  obtain ⟨fault, offset⟩ := e
  cases fault <;> simp [isPassed]

section Calls

variable {l : Lexer} {m n : ℕ}

theorem after_succ (l : Lexer) (n : ℕ) : l.after (n + 1) = (l.after n).next.2 :=
  Function.iterate_succ_apply' _ _ _

theorem answer_succ (l : Lexer) (n : ℕ) : l.answer (n + 1) = l.next.2.answer n := rfl

/-- A call that comes to the same when it is made again does so for ever. -/
theorem answer_of_stays (h : (l.after m).next.2.next = (l.after m).next) (hmn : m ≤ n) :
    l.answer n = l.answer m := by
  have hafter (d : ℕ) : l.after (m + d + 1) = (l.after m).next.2 := by
    induction d with
    | zero => exact after_succ l m
    | succ d ih => exact (after_succ l (m + d + 1)).trans (by rw [ih, h])
  obtain rfl | hlt := hmn.eq_or_lt
  · rfl
  · obtain ⟨d, rfl⟩ := Nat.exists_eq_add_of_lt hlt
    rw [answer, hafter, h, answer]

/-- The loop that collects tokens calls the lexer as long as there are some, and once more. -/
theorem exists_answers_drain (l : Lexer) :
    ∃ ls : List Located, (∀ t ∈ ls, t.token ≠ .endOfInput) ∧
      (List.range ls.length).map l.answer = ls.map .ok ∧
      ((∃ t, l.answer ls.length = .ok t ∧ t.token = .endOfInput ∧ l.drain = .ok ls) ∨
        ∃ e, l.answer ls.length = .error e ∧ l.drain = .error e) := by
  rcases hnext : l.next with ⟨e | t, l'⟩
  · exact ⟨[], nofun, rfl, .inr ⟨e, congrArg Prod.fst hnext, drain_of_error hnext⟩⟩
  · by_cases ht : t.token = .endOfInput
    · exact ⟨[], nofun, rfl, .inl ⟨t, congrArg Prod.fst hnext, ht, drain_of_end hnext ht⟩⟩
    · have hlt := length_next_lt hnext ht
      obtain ⟨ls, htokens, hanswers, hend⟩ := exists_answers_drain l'
      have hfirst : l.answer 0 = .ok t := congrArg Prod.fst hnext
      have hrest (n : ℕ) : l.answer (n + 1) = l'.answer n := by rw [answer_succ, hnext]
      refine ⟨t :: ls, List.forall_mem_cons.2 ⟨ht, htokens⟩, ?_, ?_⟩
      · rw [List.length_cons, List.range_succ_eq_map, List.map_cons, List.map_map, hfirst,
          List.map_cons, ← hanswers]
        exact congrArg _ (List.map_congr_left fun n _ => hrest n)
      · rw [List.length_cons, hrest, drain_of_token hnext ht]
        obtain ⟨u, hu, hue, hdrain⟩ | ⟨e, he, hdrain⟩ := hend
        · exact .inl ⟨u, hu, hue, by rw [hdrain]; rfl⟩
        · exact .inr ⟨e, he, by rw [hdrain]; rfl⟩
termination_by l.rest.length

end Calls

/-- What a call comes to that is made behind the first `k` characters of a text. -/
inductive Moves (cs : List Char) (k : ℕ) : Except LexError Located × Lexer → Prop
  | ends : Moves cs k (.ok ⟨.endOfInput, byteLength cs⟩, behind cs cs.length)
  | stays {e : LexError} {j : ℕ} (hkj : k ≤ j) (hj : j ≤ cs.length)
      (he : isPassed (.error e) = false) (hstays : (behind cs j).next = (.error e, behind cs j)) :
    Moves cs k (.error e, behind cs j)
  | passes {a : Except LexError Located} {j : ℕ} (hkj : k < j) (hj : j ≤ cs.length)
      (ha : isPassed a = true) : Moves cs k (a, behind cs j)

section Behind

variable {cs lexeme : List Char} {j k : ℕ} {r : Except LexError Located × Lexer}
variable {a : Except LexError Located}

theorem position_behind (hk : k ≤ cs.length) : (behind cs k).position cs = k := by
  rw [position, behind, List.length_drop]
  omega

theorem advance_behind (h : lexeme <+: cs.drop k) :
    (behind cs k).advance lexeme = behind cs (k + lexeme.length) := by
  have hlexeme : (cs.drop k).take lexeme.length = lexeme := (List.prefix_iff_eq_take.1 h).symm
  rw [behind, advance, behind, List.drop_drop, List.take_add, byteLength_append, hlexeme]

theorem add_length_le (hk : k ≤ cs.length) (h : lexeme <+: cs.drop k) :
    k + lexeme.length ≤ cs.length := by
  have := h.length_le
  rw [List.length_drop] at this
  omega

theorem next_behind_of_stays (h : Stays isBlank (cs.drop k)) :
    (behind cs k).next = (behind cs k).first := by
  rw [next, behind]
  cases hrest : cs.drop k with
  | nil => rfl
  | cons c rest => rw [skipBlanks_of_not_isBlank (h c rest hrest)]

/-- A call takes off the blanks first. -/
theorem exists_next_behind (hk : k ≤ cs.length) :
    ∃ j, k ≤ j ∧ j ≤ cs.length ∧ Stays isBlank (cs.drop j) ∧
      (behind cs k).next = (behind cs j).first := by
  have hblanks : (cs.drop k).takeWhile isBlank <+: cs.drop k := List.takeWhile_prefix _
  have hdrop : cs.drop (k + ((cs.drop k).takeWhile isBlank).length) =
      (cs.drop k).dropWhile isBlank := by
    have hsplit := List.takeWhile_append_dropWhile (p := isBlank) (l := cs.drop k)
    rw [← List.drop_drop]
    exact (congrArg (List.drop _) hsplit.symm).trans List.drop_left
  refine ⟨_, Nat.le_add_right _ _, add_length_le hk hblanks, hdrop ▸ stays_dropWhile _ _, ?_⟩
  rw [next, ← advance_behind hblanks]
  rfl

theorem Moves.mono (h : Moves cs j r) (hkj : k ≤ j) : Moves cs k r := by
  cases h with
  | ends => exact .ends
  | stays hji hi he hstays => exact .stays (hkj.trans hji) hi he hstays
  | passes hji hi ha => exact .passes (hkj.trans_lt hji) hi ha

theorem next_behind_length (cs : List Char) :
    (behind cs cs.length).next = (.ok ⟨.endOfInput, byteLength cs⟩, behind cs cs.length) := by
  rw [behind, List.drop_length, List.take_length]
  rfl

/-- What is taken off the front of a text, be it a token or not, says whether the lexer goes on. -/
theorem moves_of_first (hj : j ≤ cs.length) (hstarts : lexeme <+: cs.drop j)
    (hfirst : (behind cs j).first = (a, (behind cs j).advance lexeme))
    (hcase : (∃ e, a = .error e ∧ lexeme = [] ∧ isPassed a = false ∧
        Stays isBlank (cs.drop j)) ∨ lexeme ≠ [] ∧ isPassed a = true) :
    Moves cs j (behind cs j).first := by
  rw [advance_behind hstarts] at hfirst
  obtain ⟨e, rfl, rfl, he, hstays⟩ | ⟨hne, ha⟩ := hcase
  · rw [hfirst]
    exact .stays le_rfl hj he ((next_behind_of_stays hstays).trans hfirst)
  · rw [hfirst]
    exact .passes (Nat.lt_add_of_pos_right (List.length_pos_iff.2 hne))
      (add_length_le hj hstarts) ha

theorem moves_first (hj : j ≤ cs.length) (hstays : Stays isBlank (cs.drop j)) :
    Moves cs j (behind cs j).first := by
  cases hrest : cs.drop j with
  | nil =>
    obtain rfl : j = cs.length := hj.antisymm (List.drop_eq_nil_iff.1 hrest)
    rw [← next_behind_of_stays hstays, next_behind_length]
    exact .ends
  | cons c body =>
    rcases hfront : Token.front c body with ⟨fault | t, lexeme⟩
    · obtain ⟨hstarts, hcase⟩ := Token.lexeme_of_front_error hfront
      refine moves_of_first hj (hrest ▸ hstarts) (a := .error ⟨fault, byteLength (cs.take j)⟩) ?_ ?_
      · rw [first]
        simp only [behind, hrest, hfront]
      · obtain ⟨hnil, rfl⟩ | ⟨hne, hfault⟩ := hcase
        · exact .inl ⟨_, rfl, hnil, rfl, hstays⟩
        · exact .inr ⟨hne, isPassed_error_iff.2 hfault⟩
    · obtain ⟨rest, hlexeme, hspells, -⟩ := Token.of_front hfront
      have hstarts : lexeme <+: cs.drop j := ⟨rest, (hrest.trans hlexeme).symm⟩
      refine moves_of_first hj hstarts (a := .ok ⟨t, byteLength (cs.take j)⟩) ?_ ?_
      · rw [first]
        simp only [behind, hrest, hfront]
      · refine .inr ⟨Token.front_ne_nil hfront, isPassed_ok_iff.2 ?_⟩
        rintro rfl
        cases hspells

theorem moves_next (hk : k ≤ cs.length) : Moves cs k (behind cs k).next := by
  obtain ⟨j, hkj, hj, hstays, hnext⟩ := exists_next_behind hk
  rw [hnext]
  exact (moves_first hj hstays).mono hkj

end Behind

namespace Moves

variable {cs : List Char} {k : ℕ} {r : Except LexError Located × Lexer}

theorem exists_behind (h : Moves cs k r) : ∃ j ≤ cs.length, r.2 = behind cs j := by
  cases h with
  | ends => exact ⟨_, le_rfl, rfl⟩
  | stays _ hj => exact ⟨_, hj, rfl⟩
  | passes _ hj => exact ⟨_, hj, rfl⟩

theorem le_position (h : Moves cs k r) (hk : k ≤ cs.length) : k ≤ r.2.position cs := by
  cases h with
  | ends => rwa [position_behind le_rfl]
  | stays hkj hj => rwa [position_behind hj]
  | passes hkj hj =>
    rw [position_behind hj]
    exact hkj.le

theorem lt_position (h : Moves cs k r) (hpassed : isPassed r.1 = true) : k < r.2.position cs := by
  cases h with
  | ends => cases hpassed
  | stays _ _ he => cases he.symm.trans hpassed
  | passes hkj hj => rwa [position_behind hj]

/-- Where the lexer does not go forward, the next call comes to the same. -/
theorem next_eq (h : Moves cs k r) (hpassed : isPassed r.1 = false) : r.2.next = r := by
  cases h with
  | ends => exact next_behind_length cs
  | stays _ _ _ hstays => exact hstays
  | passes _ _ ha => cases ha.symm.trans hpassed

theorem eq_end {t : Located} (h : Moves cs k r) (hr : r.1 = .ok t) (ht : t.token = .endOfInput) :
    t = ⟨.endOfInput, byteLength cs⟩ := by
  cases h with
  | ends => exact (Except.ok.inj hr).symm
  | stays => cases hr
  | @passes a _ _ _ ha =>
    obtain rfl : a = .ok t := hr
    exact absurd ht (isPassed_ok_iff.1 ha)

end Moves

section Course

variable {cs : List Char} {m n : ℕ}

/-- However often it is called, the lexer of a text stands behind some of its characters. -/
theorem after_eq_behind (cs : List Char) (n : ℕ) :
    ((behind cs 0).after n).position cs ≤ cs.length ∧
      (behind cs 0).after n = behind cs (((behind cs 0).after n).position cs) := by
  suffices h : ∃ k ≤ cs.length, (behind cs 0).after n = behind cs k by
    obtain ⟨k, hk, hafter⟩ := h
    rw [hafter, position_behind hk]
    exact ⟨hk, rfl⟩
  induction n with
  | zero => exact ⟨0, Nat.zero_le _, rfl⟩
  | succ n ih =>
    obtain ⟨k, hk, hafter⟩ := ih
    rw [after_succ, hafter]
    exact (moves_next hk).exists_behind

theorem moves_after (cs : List Char) (n : ℕ) :
    Moves cs (((behind cs 0).after n).position cs) ((behind cs 0).after n).next := by
  obtain ⟨hle, hafter⟩ := after_eq_behind cs n
  have hmoves := moves_next hle
  rwa [← hafter] at hmoves

theorem position_after_le (cs : List Char) (n : ℕ) :
    ((behind cs 0).after n).position cs ≤ ((behind cs 0).after (n + 1)).position cs := by
  rw [after_succ]
  exact (moves_after cs n).le_position (after_eq_behind cs n).1

theorem position_after_lt (h : isPassed ((behind cs 0).answer n) = true) :
    ((behind cs 0).after n).position cs < ((behind cs 0).after (n + 1)).position cs := by
  rw [after_succ]
  exact (moves_after cs n).lt_position h

theorem answer_of_not_isPassed (h : isPassed ((behind cs 0).answer m) = false) (hmn : m ≤ n) :
    (behind cs 0).answer n = (behind cs 0).answer m :=
  answer_of_stays ((moves_after cs m).next_eq h) hmn

/-- Once the end of the text is told, it is told for ever. -/
theorem answer_of_end {t : Located} (h : (behind cs 0).answer m = .ok t)
    (ht : t.token = .endOfInput) (hmn : m ≤ n) :
    (behind cs 0).answer n = .ok ⟨.endOfInput, byteLength cs⟩ := by
  have hpassed : isPassed ((behind cs 0).answer m) = false := by
    rw [h]
    exact Bool.eq_false_iff.2 fun hpassed => isPassed_ok_iff.1 hpassed ht
  rw [answer_of_not_isPassed hpassed hmn, h, (moves_after cs m).eq_end h ht]

/-- Each answer that is passed takes a character of its own. -/
theorem countP_answers_le (cs : List Char) (n : ℕ) :
    ((List.range n).map (behind cs 0).answer).countP isPassed ≤
      ((behind cs 0).after n).position cs := by
  induction n with
  | zero => exact Nat.zero_le _
  | succ n ih =>
    rw [List.range_succ, List.map_append, List.countP_append, List.map_singleton,
      List.countP_singleton]
    split
    · rename_i hpassed
      have := position_after_lt hpassed
      omega
    · exact ih.trans (position_after_le cs n)

end Course

/-- A lexer that is called on and on never goes back and never leaves the text. It goes forward with
every token and every fault that it leaves behind, and so not more often than there are characters;
at the end of the text, or at a character that begins no token, it gives the same answer for ever.
So the tokens of a text are collected in at most one call more than it has characters. -/
theorem advances_or_stays (text : String) :
    let l := ofString text
    let place (n : ℕ) := (l.after n).position text.toList
    (∀ n, place n ≤ text.length ∧ l.after n = behind text.toList (place n)) ∧
    Monotone place ∧
    (∀ n, isPassed (l.answer n) = true → place n < place (n + 1)) ∧
    (∀ m n t, l.answer m = .ok t → t.token = .endOfInput → m ≤ n →
      l.answer n = .ok ⟨.endOfInput, text.utf8ByteSize⟩) ∧
    (∀ m n c offset, l.answer m = .error ⟨.unexpectedCharacter c, offset⟩ → m ≤ n →
      l.answer n = .error ⟨.unexpectedCharacter c, offset⟩) ∧
    (∀ n, ((List.range n).map l.answer).countP isPassed ≤ text.length) ∧
    ∃ ls : List Located, ls.length ≤ text.length ∧ (∀ t ∈ ls, t.token ≠ .endOfInput) ∧
      (List.range ls.length).map l.answer = ls.map .ok ∧
      (l.answer ls.length = .ok ⟨.endOfInput, text.utf8ByteSize⟩ ∧ tokenize text = .ok ls ∧
          Cursor.ofText text = .ok ⟨ls, text.utf8ByteSize⟩ ∨
        ∃ e, l.answer ls.length = .error e ∧ tokenize text = .error e ∧
          Cursor.ofText text = .error (.ofLexError e)) := by
  intro l place
  have hlength : text.toList.length = text.length := String.length_toList
  have hplace (n : ℕ) : place n ≤ text.length ∧ l.after n = behind text.toList (place n) :=
    hlength ▸ after_eq_behind text.toList n
  have hend {m n : ℕ} {t : Located} (h : l.answer m = .ok t) (ht : t.token = .endOfInput)
      (hmn : m ≤ n) : l.answer n = .ok ⟨.endOfInput, text.utf8ByteSize⟩ := by
    rw [utf8ByteSize_eq]
    exact answer_of_end h ht hmn
  have hcount (n : ℕ) : ((List.range n).map l.answer).countP isPassed ≤ text.length :=
    (countP_answers_le text.toList n).trans (hplace n).1
  refine ⟨hplace, monotone_nat_of_le_succ (position_after_le text.toList),
    fun n => position_after_lt, fun m n t => hend, fun m n c offset h hmn => ?_, hcount, ?_⟩
  · have hpassed : isPassed (l.answer m) = false := by
      rw [h]
      rfl
    exact (answer_of_not_isPassed hpassed hmn).trans h
  · obtain ⟨ls, htokens, hanswers, hcase⟩ := exists_answers_drain l
    have hle : ls.length ≤ text.length := by
      have hall : (ls.map (.ok : Located → Except LexError Located)).countP isPassed =
          ls.length := by
        rw [List.countP_map]
        exact List.countP_eq_length.2 fun t ht => isPassed_ok_iff.2 (htokens t ht)
      rw [← hall, ← hanswers]
      exact hcount ls.length
    refine ⟨ls, hle, htokens, hanswers, ?_⟩
    obtain ⟨t, hanswer, ht, hdrain⟩ | ⟨e, hanswer, hdrain⟩ := hcase
    · refine .inl ⟨hend hanswer ht le_rfl, hdrain, ?_⟩
      rw [Cursor.ofText, tokenize, hdrain]
    · refine .inr ⟨e, hanswer, hdrain, ?_⟩
      rw [Cursor.ofText, tokenize, hdrain]

/-- A string and a bad number are left behind, and no token begins with the sign after them. -/
theorem advances_or_stays_sign :
    let text := "'é' 1.2.3 #"
    let l := ofString text
    l.answer 1 = .error ⟨.invalidNumber "1.2.3", 5⟩ ∧
      (l.after 1).position text.toList = 3 ∧ (l.after 2).position text.toList = 9 ∧
      ∀ n, 2 ≤ n → l.answer n = .error ⟨.unexpectedCharacter '#', 11⟩ := by
  intro text l
  have h : l.answer 2 = .error ⟨.unexpectedCharacter '#', 11⟩ := by decide +kernel
  obtain ⟨-, -, -, -, hstays, -⟩ := advances_or_stays text
  exact ⟨by decide +kernel, by decide +kernel, by decide +kernel,
    fun n hn => hstays 2 n '#' 11 h hn⟩

end Lexer

end RecordPath
