import Mathlib.Data.String.Basic
import RecordPath.Proofs.Token.Lexeme

namespace RecordPath

open Text

def Text.BeginsAt (cs : List Char) (offset : Nat) (rest : List Char) : Prop :=
  ∃ front, cs = front ++ rest ∧ offset = byteLength front

theorem Text.utf8ByteSize_eq (s : String) : s.utf8ByteSize = byteLength s.toList := by
  rw [← String.utf8Len_toList]
  induction s.toList with
  | nil => rfl
  | cons c cs ih => rw [String.utf8Len_cons, ih, byteLength_cons, Nat.add_comm]

namespace Text.BeginsAt

variable {cs ds rest : List Char} {offset : Nat}

theorem start (cs : List Char) : BeginsAt cs 0 cs := ⟨[], rfl, rfl⟩

theorem drop (h : BeginsAt cs offset (ds ++ rest)) :
    BeginsAt cs (offset + byteLength ds) rest := by
  obtain ⟨front, rfl, rfl⟩ := h
  exact ⟨front ++ ds, (List.append_assoc _ _ _).symm, (byteLength_append _ _).symm⟩

theorem length (h : BeginsAt cs offset rest) : offset + byteLength rest = byteLength cs := by
  obtain ⟨front, rfl, rfl⟩ := h
  exact (byteLength_append _ _).symm

end Text.BeginsAt

/-- What a fault says of the text that begins where it was found. -/
inductive LexFault.Heads : LexFault → List Char → Prop
  | unexpectedCharacter (c : Char) (cs : List Char) : Heads (.unexpectedCharacter c) (c :: cs)
  | unterminatedString {quote : Char} {cs : List Char} (hq : Token.isQuote quote = true)
      (h : quote ∉ cs) : Heads .unterminatedString (quote :: cs)
  | invalidNumber {literal : String} {cs : List Char} (h : literal.toList <+: cs) :
      Heads (.invalidNumber literal) cs

theorem Token.heads_of_front {c : Char} {cs lexeme : List Char} {fault : LexFault}
    (h : front c cs = (.error fault, lexeme)) : fault.Heads (c :: cs) := by
  unfold front at h
  split at h
  · split at h <;> cases h
    exact .unterminatedString ‹_› ‹_›
  · split at h
    · cases h
    · split at h
      · dsimp only at h
        split at h <;> cases h
        refine .invalidNumber ?_
        rw [String.toList_ofList]
        exact (List.prefix_cons_inj c).2 (List.takeWhile_prefix _)
      · split at h <;> cases h
        exact .unexpectedCharacter c cs

namespace Lexer

inductive Takes (cs : List Char) : Except LexError Located × Lexer → Prop
  | ends {offset : Nat} (h : BeginsAt cs offset []) :
    Takes cs (.ok ⟨.endOfInput, offset⟩, ⟨[], offset⟩)
  | token {offset : Nat} {t : Token} {lexeme rest : List Char}
      (h : BeginsAt cs offset (lexeme ++ rest)) (ht : t.Spells lexeme) :
    Takes cs (.ok ⟨t, offset⟩, ⟨rest, offset + byteLength lexeme⟩)
  | fault {offset : Nat} {fault : LexFault} {rest : List Char} (h : BeginsAt cs offset rest)
      (hf : fault.Heads rest) (l : Lexer) : Takes cs (.error ⟨fault, offset⟩, l)

variable {cs lexeme rest : List Char} {l l' : Lexer}

theorem advance_eq (h : l.rest = lexeme ++ rest) :
    l.advance lexeme = ⟨rest, l.offset + byteLength lexeme⟩ := by
  rw [advance, h, List.drop_left]

theorem beginsAt_skipBlanks (h : BeginsAt cs l.offset l.rest) :
    BeginsAt cs l.skipBlanks.offset l.skipBlanks.rest := by
  have hrest := (List.takeWhile_append_dropWhile (p := isBlank) (l := l.rest)).symm
  rw [skipBlanks, advance_eq hrest]
  exact (hrest ▸ h).drop

theorem takes_next (h : BeginsAt cs l.offset l.rest) : Takes cs l.next := by
  replace h := beginsAt_skipBlanks h
  rw [next]
  generalize l.skipBlanks = l at h
  obtain ⟨rest, offset⟩ := l
  cases rest with
  | nil => exact .ends h
  | cons c body =>
    rw [first]
    cases hfront : Token.front c body with
    | mk result lexeme =>
      cases result with
      | error fault =>
        simp only [hfront]
        exact .fault h (Token.heads_of_front hfront) _
      | ok t =>
        obtain ⟨rest, hrest, hspells, -⟩ := Token.of_front hfront
        simp only [hfront, advance_eq (l := ⟨c :: body, offset⟩) hrest]
        exact .token (hrest ▸ h) hspells

def drainToEnd (l : Lexer) : Except LexError (List Located) :=
  match h : l.next with
  | (.error e, _) => .error e
  | (.ok t, l') =>
    if ht : t.token = .endOfInput then .ok [t]
    else
      have := length_next_lt h ht
      (drainToEnd l').map (t :: ·)
termination_by l.rest.length

section DrainToEnd

variable {t : Located} {e : LexError}

theorem drainToEnd_of_error (h : l.next = (.error e, l')) : l.drainToEnd = .error e := by
  rw [drainToEnd]
  split <;> rename_i h' <;> cases h.symm.trans h'
  rfl

theorem drainToEnd_of_end (h : l.next = (.ok t, l')) (ht : t.token = .endOfInput) :
    l.drainToEnd = .ok [t] := by
  rw [drainToEnd]
  split <;> rename_i h' <;> cases h.symm.trans h'
  rw [dif_pos ht]

theorem drainToEnd_of_token (h : l.next = (.ok t, l')) (ht : t.token ≠ .endOfInput) :
    l.drainToEnd = l'.drainToEnd.map (t :: ·) := by
  rw [drainToEnd]
  split <;> rename_i h' <;> cases h.symm.trans h'
  rw [dif_neg ht]

end DrainToEnd

def Stands (cs : List Char) (t : Located) : Prop :=
  ∃ lexeme rest, BeginsAt cs t.position (lexeme ++ rest) ∧ t.token.Spells lexeme

theorem Stands.ne_end {cs : List Char} {t : Located} (h : Stands cs t) :
    t.token ≠ .endOfInput := by
  obtain ⟨lexeme, rest, -, hspells⟩ := h
  rintro he
  rw [he] at hspells
  cases hspells

/-- What taking all tokens from a text comes to, without the mark at its end and with it. -/
inductive Drains (cs : List Char) (l : Lexer) : Prop
  | tokens {ls : List Located} (h : l.drain = .ok ls)
      (hend : l.drainToEnd = .ok (ls ++ [⟨.endOfInput, byteLength cs⟩]))
      (hls : ∀ t ∈ ls, Stands cs t)
  | fault {e : LexError} {rest : List Char} (h : l.drain = .error e)
      (hend : l.drainToEnd = .error e) (hrest : BeginsAt cs e.position rest)
      (hf : e.fault.Heads rest)

theorem drains {cs : List Char} {l : Lexer} (h : BeginsAt cs l.offset l.rest) : Drains cs l := by
  have hnext := takes_next h
  generalize hr : l.next = r at hnext
  cases hnext with
  | @ends offset h =>
    refine .tokens (drain_of_end hr rfl) ?_ nofun
    rw [drainToEnd_of_end hr rfl, ← h.length]
    rfl
  | fault h hf l' => exact .fault (drain_of_error hr) (drainToEnd_of_error hr) h hf
  | @token offset t lexeme rest h ht =>
    have htoken : t ≠ .endOfInput := by
      rintro rfl
      cases ht
    have hlt : rest.length < l.rest.length := length_next_lt hr htoken
    cases drains (l := ⟨rest, offset + byteLength lexeme⟩) h.drop with
    | @tokens ls hls hend hstands =>
      have hdrain : l.drain = .ok (⟨t, offset⟩ :: ls) := by
        rw [drain_of_token hr htoken, hls]
        rfl
      refine .tokens hdrain ?_ (List.forall_mem_cons.2 ⟨⟨lexeme, rest, h, ht⟩, hstands⟩)
      rw [drainToEnd_of_token hr htoken, hend]
      rfl
    | fault he hend hrest hf =>
      refine .fault ?_ ?_ hrest hf
      · rw [drain_of_token hr htoken, he]
        rfl
      · rw [drainToEnd_of_token hr htoken, hend]
        rfl
termination_by l.rest.length

theorem drains_ofString (text : String) : Drains text.toList (ofString text) :=
  drains (BeginsAt.start text.toList)

end Lexer

end RecordPath
